import Lilsync.Lib.Posix.Names
import Lilsync.State.Names
import Lilsync.Sync.Slots

/-!
# The names of temporary files

The number in the name of a temporary file tells it from every other one, so a
shared file and a file that a task made of its own never have the same name.
-/

namespace Lilsync

open Lilsync.Lib Lilsync.Lib.Posix Lilsync.Lib.Posix.Disk

/-! ## Numbers in decimal -/

/-- The number a decimal stands for. -/
def ofDecimal (s : Str) : Nat := Nat.ofDigits 10 (s.reverse.map fun c ↦ c.toNat - 48)

theorem toNat_digit {d : Nat} (h : d < 10) : (48 + d).toUInt8.toNat = 48 + d := by
  rw [Nat.toUInt8, UInt8.toNat_ofNat']
  omega

theorem ofDecimal_decimal (n : Nat) : ofDecimal (decimal n) = n := by
  rw [decimal, ofDecimal]
  split
  · next h =>
    rw [h]
    rfl
  · rw [← List.map_reverse, List.reverse_reverse, List.map_map]
    have hid : (Nat.digits 10 n).map ((fun c : UInt8 ↦ c.toNat - 48) ∘ fun d ↦ (48 + d).toUInt8) =
        Nat.digits 10 n := by
      refine (List.map_congr_left fun d hd ↦ ?_).trans (List.map_id _)
      rw [Function.comp_apply, toNat_digit (Nat.digits_lt_base (by decide) hd)]
      exact Nat.add_sub_cancel_left ..
    rw [hid, Nat.ofDigits_digits]

theorem decimal_injective : Function.Injective decimal :=
  Function.LeftInverse.injective ofDecimal_decimal

theorem hyphen_notMem_decimal (n : Nat) : (45 : UInt8) ∉ decimal n := by
  rw [decimal]
  split
  · decide
  · intro h
    obtain ⟨d, hd, heq⟩ := List.mem_map.mp h
    have hlt := Nat.digits_lt_base (by decide) (List.mem_reverse.mp hd)
    have := congrArg UInt8.toNat heq
    rw [toNat_digit hlt] at this
    change 48 + d = 45 at this
    omega

/-- What stands before the first separator. -/
theorem eq_of_append_cons {a : UInt8} {l l' r r' : Str} (hl : a ∉ l) (hl' : a ∉ l')
    (h : l ++ a :: r = l' ++ a :: r') : l = l' := by
  rcases List.append_eq_append_iff.mp h with ⟨c, rfl, hr⟩ | ⟨c, rfl, hr⟩
  all_goals
    cases c with
    | nil => simp
    | cons b c =>
      obtain ⟨rfl, -⟩ := List.cons.inj hr
      simp at hl hl'

/-! ## Names -/

section Names

variable [Blake3] {root : PathBuf} {pid id id' : Nat} {entry entry' : Entry}

/-- The last part of a temporary file's name, after its number. -/
def recvSuffix (entry : Entry) : Str :=
  decimal entry.version.lamport ++ lit "-" ++ (toHex (Blake3.digest entry.path)).take 16

/-- The name of a temporary file. -/
def recvName (pid id : Nat) (entry : Entry) : Str :=
  lit "recv-" ++ (decimal pid ++ (lit "-" ++ (decimal id ++ 45 :: recvSuffix entry)))

theorem tmpRecvPath_eq (root : PathBuf) (pid id : Nat) (entry : Entry) :
    tmpRecvPath root pid id entry = root.join stateDir ++ [recvName pid id entry] := by
  simp only [tmpRecvPath, recvName, recvSuffix, List.append_assoc]
  rfl

theorem getLast?_tmpRecvPath : (tmpRecvPath root pid id entry).getLast? =
    some (recvName pid id entry) := by
  rw [tmpRecvPath_eq, List.getLast?_concat]

/-- The number can be read off the name. -/
theorem recvName_inj (h : recvName pid id entry = recvName pid id' entry') : id = id' := by
  have hrest := List.append_cancel_left (List.append_cancel_left (List.append_cancel_left h))
  exact decimal_injective (eq_of_append_cons (hyphen_notMem_decimal id)
    (hyphen_notMem_decimal id') hrest)

theorem isEntry_recvName : IsEntry (recvName pid id entry) := by
  constructor <;> exact fun h ↦ by cases congrArg List.head? h

end Names

namespace SyncSystem

variable {s s' : SyncSystem} {t : Nat} {task : Task}

/-- The root of the folder. -/
def root (s : SyncSystem) : PathBuf := s.node.folder.root

/-! ## Who knows which file -/

/-- The shared file a task has to do with. -/
def sharedTmp : Pc → Option PathBuf
  | .fetching _ path | .fetched _ (.ok path) | .claiming _ path | .ownNaming _ path
  | .materializing _ path _ => some path
  | _ => none

/-- The file of its own that a task has or makes. -/
def ownTmp : Pc → Option PathBuf
  | .materializing _ _ own | .materialized _ own _ | .removing _ (.ok (some own))
  | .done (.ok (some own)) => some own
  | _ => none

variable [Blake3] {pid : Nat}

/-- The path is one that was given out. -/
def GivenOut (pid : Nat) (s : SyncSystem) (path : PathBuf) : Prop :=
  ∃ id entry, id < s.nextRecvId ∧ path = tmpRecvPath s.root pid id entry

/-- The path was given out, and not for a shared file. -/
structure Own (pid : Nat) (s : SyncSystem) (path : PathBuf) : Prop where
  givenOut : GivenOut pid s path
  ne : ∀ p ∈ s.sharedTmpPaths, p.getLast? ≠ path.getLast?

/-- What a task at the program counter knows of the temporary files is right. -/
structure PcNamed (pid : Nat) (s : SyncSystem) (pc : Pc) : Prop where
  shared : ∀ path ∈ sharedTmp pc, path ∈ s.sharedTmpPaths
  own : ∀ path ∈ ownTmp pc, Own pid s path

/-- Shared files have names of their own. -/
structure Named (pid : Nat) (s : SyncSystem) : Prop where
  givenOut : ∀ path ∈ s.sharedTmpPaths, GivenOut pid s path
  results : ∀ slot path, s.result slot = some (.ok path) → path ∈ s.sharedTmpPaths
  tasks : ∀ (t : Nat) (task : Task), s.tasks[t]? = some task → PcNamed pid s task.pc

/-- The next name differs from the ones given out. -/
theorem GivenOut.getLast?_ne {path : PathBuf} (h : GivenOut pid s path) (entry : Entry) :
    path.getLast? ≠ (s.nameTmp pid entry).getLast? := by
  obtain ⟨id, entry', hlt, rfl⟩ := h
  rw [nameTmp, getLast?_tmpRecvPath, getLast?_tmpRecvPath]
  exact fun h ↦ absurd (recvName_inj (Option.some.inj h)) hlt.ne

/-- A path of its own can be told from the shared ones wherever it leads. -/
theorem Own.apartFrom {path : PathBuf} (h : Own pid s path) :
    ∃ name, ApartFrom s.sharedTmpPaths path name := by
  obtain ⟨id, entry, -, rfl⟩ := h.givenOut
  refine ⟨recvName pid id entry, getLast?_tmpRecvPath, isEntry_recvName, fun p hp ↦ ?_⟩
  have hne := h.ne p hp
  rwa [getLast?_tmpRecvPath] at hne

/-! ## Steps -/

theorem PcNamed.ofShared {pc : Pc} (h : ∀ path ∈ sharedTmp pc, path ∈ s.sharedTmpPaths)
    (hown : ownTmp pc = none) : PcNamed pid s pc :=
  ⟨h, by simp [hown]⟩

theorem PcNamed.ofOwn {pc : Pc} (hshared : sharedTmp pc = none)
    (h : ∀ path ∈ ownTmp pc, Own pid s path) : PcNamed pid s pc :=
  ⟨by simp [hshared], h⟩

theorem PcNamed.none {pc : Pc} (hshared : sharedTmp pc = none) (hown : ownTmp pc = none) :
    PcNamed pid s pc :=
  .ofOwn hshared (by simp [hown])

/-- A step that names no shared file. -/
structure SameNames (s s' : SyncSystem) : Prop where
  root_eq : s'.root = s.root
  nextRecvId_le : s.nextRecvId ≤ s'.nextRecvId
  sharedTmpPaths_eq : s'.sharedTmpPaths = s.sharedTmpPaths

theorem SameNames.givenOut (h : SameNames s s') {path : PathBuf} (hp : GivenOut pid s path) :
    GivenOut pid s' path := by
  obtain ⟨id, entry, hlt, rfl⟩ := hp
  exact ⟨id, entry, hlt.trans_le h.nextRecvId_le, by rw [h.root_eq]⟩

theorem SameNames.pcNamed (h : SameNames s s') {pc : Pc} (hp : PcNamed pid s pc) :
    PcNamed pid s' pc := by
  refine ⟨fun path hpath ↦ ?_, fun path hpath ↦ ⟨h.givenOut (hp.own path hpath).givenOut, ?_⟩⟩
  · rw [h.sharedTmpPaths_eq]
    exact hp.shared path hpath
  · rw [h.sharedTmpPaths_eq]
    exact (hp.own path hpath).ne

/-- One task moves, and no shared file is named. -/
theorem Named.of_sameNames (h : Named pid s) (hs : SameNames s s') {pc : Pc}
    (htasks : s'.tasks = (s.setPc t pc).tasks) (hpc : PcNamed pid s' pc)
    (hresult : ∀ slot path, s'.result slot = some (.ok path) → path ∈ s.sharedTmpPaths) :
    Named pid s' := by
  refine ⟨fun path hp ↦ ?_, fun slot path hr ↦ ?_, fun u task hu ↦ ?_⟩
  · rw [hs.sharedTmpPaths_eq] at hp
    exact hs.givenOut (h.givenOut path hp)
  · rw [hs.sharedTmpPaths_eq]
    exact hresult slot path hr
  · rw [htasks, getElem?_setPc] at hu
    obtain ⟨task₀, hu₀, rfl⟩ := Option.map_eq_some_iff.mp hu
    split
    · exact hpc
    · exact hs.pcNamed (h.tasks u task₀ hu₀)

/-- A leader names a shared file. -/
theorem Named.naming (h : Named pid s) {slot : Nat} (entry : Entry) :
    Named pid (setPc { s with
      nextRecvId := s.nextRecvId + 1
      sharedTmpPaths := s.nameTmp pid entry :: s.sharedTmpPaths } t
        (.fetching slot (s.nameTmp pid entry))) := by
  have hgiven : ∀ path, GivenOut pid s path → ∀ s' : SyncSystem, s'.root = s.root →
      s'.nextRecvId = s.nextRecvId + 1 → GivenOut pid s' path := by
    rintro path ⟨id, entry, hlt, rfl⟩ s' hroot hid
    exact ⟨id, entry, hid ▸ hlt.trans (Nat.lt_succ_self _), by rw [hroot]⟩
  refine ⟨fun path hp ↦ ?_, fun slot path hr ↦ ?_, fun u task hu ↦ ?_⟩
  · rcases List.mem_cons.mp hp with rfl | hp
    · exact ⟨s.nextRecvId, entry, Nat.lt_succ_self _, rfl⟩
    · exact hgiven path (h.givenOut path hp) _ rfl rfl
  · exact List.mem_cons_of_mem _ (h.results slot path hr)
  · rw [getElem?_setPc] at hu
    obtain ⟨task₀, hu₀, rfl⟩ := Option.map_eq_some_iff.mp hu
    split
    · refine .ofShared (fun path hp ↦ ?_) rfl
      obtain rfl := Option.some.inj hp
      exact List.mem_cons_self
    · have hpc := h.tasks u task₀ hu₀
      refine ⟨fun path hp ↦ List.mem_cons_of_mem _ (hpc.shared path hp), fun path hp ↦
        ⟨hgiven path (hpc.own path hp).givenOut _ rfl rfl, fun p hmem ↦ ?_⟩⟩
      rcases List.mem_cons.mp hmem with rfl | hmem
      · exact ((hpc.own path hp).givenOut.getLast?_ne entry).symm
      · exact (hpc.own path hp).ne p hmem

/-- What is kept when one task moves and nothing else that matters here does. -/
theorem Named.move (h : Named pid s) {pc : Pc} (htasks : s'.tasks = (s.setPc t pc).tasks)
    (hnode : s'.root = s.root) (hnext : s'.nextRecvId = s.nextRecvId)
    (hshared : s'.sharedTmpPaths = s.sharedTmpPaths) (hpc : PcNamed pid s pc)
    (hresult : ∀ slot path, s'.result slot = some (.ok path) → path ∈ s.sharedTmpPaths) :
    Named pid s' :=
  have hs : SameNames s s' := ⟨hnode, hnext.ge, hshared⟩
  h.of_sameNames hs htasks (hs.pcNamed hpc) hresult

omit [Blake3] in
theorem sharedTmp_wake (pc : Pc) (slot : Nat) : sharedTmp (pc.wake slot) = sharedTmp pc := by
  cases pc <;> try rfl
  rw [Pc.wake]
  split <;> rfl

omit [Blake3] in
theorem ownTmp_wake (pc : Pc) (slot : Nat) : ownTmp (pc.wake slot) = ownTmp pc := by
  cases pc <;> try rfl
  rw [Pc.wake]
  split <;> rfl

omit [Blake3] in
theorem ownTmp_removing (paths : List PathBuf) (result : Except Str (Option PathBuf)) :
    ownTmp (.removing paths result) = ownTmp (.done result) := by
  rcases result with _ | _ | _ <;> rfl

theorem Named.notify (h : Named pid s) {slot : Nat} : Named pid (s.notify t slot) := by
  refine ⟨h.givenOut, fun j path hr ↦ h.results j path (result_notify slot j ▸ hr),
    fun u task hu ↦ ?_⟩
  rw [getElem?_notify] at hu
  obtain ⟨task₀, hu₀, rfl⟩ := Option.map_eq_some_iff.mp hu
  have hpc := h.tasks u task₀ hu₀
  dsimp only
  split
  · exact .none rfl rfl
  · have hsame : SameNames s (s.notify t slot) := ⟨rfl, le_rfl, rfl⟩
    refine hsame.pcNamed ⟨?_, ?_⟩
    · rw [sharedTmp_wake]
      exact hpc.shared
    · rw [ownTmp_wake]
      exact hpc.own

/-- A result is published, or the results stay as they are. -/
theorem Named.publish (h : Named pid s) {slot : Nat} {r : Except Str PathBuf}
    (hr : PcNamed pid s (.fetched slot r)) : Named pid (s.publish t slot r) := by
  refine h.move rfl rfl rfl rfl (.none rfl rfl) fun j path hj ↦ ?_
  rw [SyncSystem.publish, result_setPc, result, getElem?_modifyState] at hj
  cases hs : s.downloads.slots[j]? with
  | none =>
    rw [hs] at hj
    cases hj
  | some ds =>
    rw [hs, Option.map_some, Option.bind_some] at hj
    split at hj
    · obtain rfl := Option.some.inj hj
      exact hr.shared path rfl
    · refine h.results j path ?_
      rw [result, hs]
      exact hj

omit [Blake3] in
/-- A slot that is new has no result. -/
theorem result_start {slot : Nat} {r : Except Str PathBuf}
    (h : (s.start t task).result slot = some r) : s.result slot = some r := by
  cases ha : s.downloads.active task.contentHash with
  | some j =>
    rw [SyncSystem.start, DownloadCoordinator.acquire, ha] at h
    have hd := tends_modifyState s.downloads j (f := fun st ↦ { st with waiters := st.waiters + 1 })
      fun _ ↦ rfl
    exact (Tends.result_eq hd slot).symm.trans h
  | none =>
    rw [start_of_active_eq_none ha, result] at h
    obtain ⟨ds, hds, hr⟩ := Option.bind_eq_some_iff.mp h
    change (s.downloads.slots ++ [_])[slot]? = some ds at hds
    rw [List.getElem?_append] at hds
    split at hds
    · rw [result, hds]
      exact hr
    · rw [List.getElem?_singleton] at hds
      split at hds <;> cases hds
      cases hr

theorem Named.start (h : Named pid s) : Named pid (s.start t task) := by
  have htasks : (s.start t task).tasks = (s.setPc t
    (if (s.downloads.acquire task.contentHash).2.2 then
      .naming (s.downloads.acquire task.contentHash).2.1
    else .reading (s.downloads.acquire task.contentHash).2.1)).tasks := rfl
  refine h.move htasks rfl rfl rfl ?_ fun slot path hr ↦ h.results slot path (result_start hr)
  split <;> exact .none rfl rfl

/-- What a task knows after its step. -/
theorem Named.runTask (h : Named pid s) (ht : s.tasks[t]? = some task) {weather : Weather}
    (hrun : s.runTask pid t task weather = some s') : Named pid s' := by
  have hpcn := h.tasks t task ht
  have hkeep {s' : SyncSystem} (hd : Tends s.downloads s'.downloads) (slot : Nat) (path : PathBuf)
      (hr : s'.result slot = some (.ok path)) : path ∈ s.sharedTmpPaths :=
    h.results slot path (hd.result_eq slot ▸ hr)
  rw [SyncSystem.runTask] at hrun
  cases hpc : task.pc with rw [hpc] at hrun hpcn
  | spawned =>
    dsimp only at hrun
    split at hrun <;> cases hrun
    exact h.start
  | naming slot =>
    obtain rfl := Option.some.inj hrun
    exact h.naming task.entry
  | fetching slot tmp =>
    obtain rfl := Option.some.inj hrun
    rw [SyncSystem.fetch.eq_def]
    split
    · split
      · exact h.move rfl rfl rfl rfl (.ofShared hpcn.shared rfl) (hkeep (.rfl' _))
      · exact h.move rfl rfl rfl rfl (.none rfl rfl) (hkeep (.rfl' _))
    · exact h.move rfl rfl rfl rfl (.none rfl rfl) (hkeep (.rfl' _))
  | fetched slot result =>
    obtain rfl := Option.some.inj hrun
    exact h.publish hpcn
  | stored slot =>
    obtain rfl := Option.some.inj hrun
    exact h.notify
  | reading slot =>
    obtain rfl := Option.some.inj hrun
    refine h.move rfl rfl rfl rfl ?_ (hkeep (.rfl' _))
    rw [afterRead]
    split
    · next path hr =>
      refine .ofShared (fun path' hp ↦ ?_) rfl
      obtain rfl := Option.some.inj hp
      exact h.results slot path hr
    · exact .none rfl rfl
    · exact .none rfl rfl
  | sawNone slot =>
    obtain rfl := Option.some.inj hrun
    exact h.move rfl rfl rfl rfl (.none rfl rfl) (hkeep (.rfl' _))
  | parked slot => cases hrun
  | failing slot err =>
    obtain rfl := Option.some.inj hrun
    exact h.move rfl rfl rfl rfl (.none rfl rfl) (hkeep (tends_release _ _ _))
  | claiming slot shared =>
    have hd := tends_claimTarget s.downloads slot task.entry
    dsimp only at hrun
    generalize s.downloads.claimTarget slot task.entry = r at hrun hd
    obtain ⟨d, claimed⟩ := r
    obtain rfl := Option.some.inj hrun
    cases claimed with
    | true => exact h.move rfl rfl rfl rfl (.ofShared hpcn.shared rfl) (hkeep hd)
    | false => exact h.move rfl rfl rfl rfl (.none rfl rfl) (hkeep hd)
  | declined slot =>
    obtain rfl := Option.some.inj hrun
    exact h.move rfl rfl rfl rfl (.none rfl rfl) (hkeep (tends_release _ _ _))
  | ownNaming slot shared =>
    obtain rfl := Option.some.inj hrun
    refine h.of_sameNames ⟨rfl, Nat.le_succ _, rfl⟩ rfl ⟨hpcn.shared, ?_⟩ (hkeep (.rfl' _))
    rintro _ ⟨⟩
    exact ⟨⟨s.nextRecvId, task.entry, Nat.lt_succ_self _, rfl⟩, fun p hp ↦
      (h.givenOut p hp).getLast?_ne task.entry⟩
  | materializing slot shared own =>
    obtain rfl := Option.some.inj hrun
    have hown : PcNamed pid s (.materialized slot own (s.materialize shared own weather).2) :=
      .ofOwn rfl hpcn.own
    revert hown
    rw [materialize.eq_def]
    split
    · split
      · exact fun hown ↦ h.move rfl rfl rfl rfl hown (hkeep (.rfl' _))
      · split <;> exact fun hown ↦ h.move rfl rfl rfl rfl hown (hkeep (.rfl' _))
    · exact fun hown ↦ h.move rfl rfl rfl rfl hown (hkeep (.rfl' _))
  | materialized slot own result =>
    cases result <;> obtain rfl := Option.some.inj hrun
    · exact h.move rfl rfl rfl rfl (.none rfl rfl) (hkeep (tends_release _ _ _))
    · exact h.move rfl rfl rfl rfl (.ofOwn rfl hpcn.own) (hkeep (tends_release _ _ _))
  | removing paths result =>
    have hown := hpcn.own
    rw [ownTmp_removing] at hown
    cases paths with
    | nil =>
      obtain rfl := Option.some.inj hrun
      exact h.move rfl rfl rfl rfl (.ofOwn rfl hown) (hkeep (.rfl' _))
    | cons path paths =>
      obtain rfl := Option.some.inj hrun
      have hpcn' : PcNamed pid s (.removing paths result) :=
        .ofOwn rfl (by rwa [ownTmp_removing])
      exact h.move rfl rfl rfl rfl hpcn' (hkeep (.rfl' _))
  | done result => cases hrun
  | aborted => cases hrun

/-! ## Installing -/

/-- What is to be installed is a task's own. -/
theorem Named.fetchedBy (h : Named pid s) {item : Entry × Option PathBuf}
    (hitem : s.fetchedBy t = some item) : ∀ path ∈ item.2, Own pid s path := by
  obtain ⟨task, ht, hi⟩ := Option.bind_eq_some_iff.mp hitem
  have hpcn := h.tasks t task ht
  split at hi
  · next tmp hpc =>
    cases hi
    rintro _ ⟨⟩
    exact hpcn.own tmp (by rw [hpc]; rfl)
  · cases hi

/-- Installing keeps the folder where it is and gives no file a second name. -/
theorem Named.tidy_install (h : Named pid s) (ts : List Nat) :
    Tidy s.received s.sharedTmpPaths s.node
      (Proc.exec (applyRemoteEntries (ts.filterMap s.fetchedBy)) s.node).2 := by
  refine tidy_applyRemoteEntries (fun item hitem path hpath ↦ ?_) s.node
  obtain ⟨t, -, ht⟩ := List.mem_filterMap.mp hitem
  exact (h.fetchedBy ht path hpath).apartFrom

theorem Named.next (h : Named pid s) {act : SyncAct} (hnext : s.next pid act = some s') :
    Named pid s' := by
  cases act with
  | spawn call contentHash entry =>
    rw [SyncSystem.next] at hnext
    split at hnext <;> cases hnext
    have hsame : SameNames s { s with tasks := s.tasks ++ [⟨call, contentHash, entry, .spawned⟩] } :=
      ⟨rfl, le_rfl, rfl⟩
    refine ⟨h.givenOut, h.results, fun u task hu ↦ ?_⟩
    rcases getElem?_of_append hu with hu | rfl
    · exact hsame.pcNamed (h.tasks u task hu)
    · exact .none rfl rfl
  | run t weather =>
    obtain ⟨task, ht, hrun⟩ := Option.bind_eq_some_iff.mp hnext
    exact h.runTask ht hrun
  | fail call =>
    obtain rfl := Option.some.inj hnext
    have hsame : SameNames s { s with failed := call :: s.failed } := ⟨rfl, le_rfl, rfl⟩
    exact ⟨h.givenOut, h.results, fun u task hu ↦ hsame.pcNamed (h.tasks u task hu)⟩
  | abort t =>
    obtain ⟨task, ht, habort⟩ := Option.bind_eq_some_iff.mp hnext
    split at habort <;> cases habort
    exact h.move rfl rfl rfl rfl (.none rfl rfl) h.results
  | install ts =>
    obtain rfl := Option.some.inj hnext
    have hsame : SameNames s { s with
        node := (Proc.exec (applyRemoteEntries (ts.filterMap s.fetchedBy)) s.node).2 } :=
      ⟨(h.tidy_install ts).root_eq, le_rfl, rfl⟩
    exact ⟨fun path hp ↦ hsame.givenOut (h.givenOut path hp), h.results, fun u task hu ↦
      hsame.pcNamed (h.tasks u task hu)⟩

end SyncSystem

end Lilsync
