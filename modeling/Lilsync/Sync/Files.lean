import Lilsync.Sync.Holders
import Lilsync.Sync.Sharing

/-!
# Whose a temporary file is

A temporary file is named once, for a slot or for a task, and it is only ever
made, read and removed for that one.  `FileStep` says what the steps of tasks do
to the files.
-/

namespace Lilsync

open Lilsync.Lib Lilsync.Lib.Posix Lilsync.Lib.Posix.Disk

/-- The files that the task removes. -/
def Pc.removes : Pc → List PathBuf
  | .removing paths _ => paths
  | _ => []

namespace SyncSystem

variable {s s' : SyncSystem} {t : Nat} {task : Task}

/-! ## What a task knows -/

/-- The slot whose download is known to the task to be done, and the shared file. -/
def sharedFile : Pc → Option (Nat × PathBuf)
  | .fetched slot (.ok path) | .claiming slot path | .ownNaming slot path
  | .materializing slot path _ => some (slot, path)
  | _ => none

/-- The file of its own that the task has made. -/
def ownFile : Pc → Option PathBuf
  | .materialized _ own (.ok _) | .removing _ (.ok (some own)) | .done (.ok (some own)) => some own
  | _ => none

/-- The path is that of the slot's shared file, which has been downloaded. -/
def FileOf (s : SyncSystem) (slot : Nat) (path : PathBuf) : Prop :=
  s.result slot = some (.ok path) ∨ ∃ task ∈ s.tasks, sharedFile task.pc = some (slot, path)

/-- The path of a download that succeeded. -/
def okPath : Option (Except Str PathBuf) → Option PathBuf
  | some (.ok path) => some path
  | _ => none

theorem okPath_eq_some {r : Option (Except Str PathBuf)} {path : PathBuf}
    (h : okPath r = some path) : r = some (.ok path) := by
  rcases r with _ | _ | _ <;> cases h
  rfl

theorem holds_of_sharedFile {pc : Pc} {slot : Nat} {path : PathBuf}
    (h : sharedFile pc = some (slot, path)) : pc.holds = some slot := by
  cases pc with
  | fetched _ r =>
    cases r <;> cases h
    rfl
  | claiming | ownNaming | materializing =>
    cases h
    rfl
  | _ => cases h

theorem sharedTmp_of_sharedFile {pc : Pc} {slot : Nat} {path : PathBuf}
    (h : sharedFile pc = some (slot, path)) : sharedTmp pc = some path := by
  cases pc with
  | fetched _ r =>
    cases r <;> cases h
    rfl
  | claiming | ownNaming | materializing =>
    cases h
    rfl
  | _ => cases h

theorem ownTmp_of_ownFile {pc : Pc} {path : PathBuf} (h : ownFile pc = some path) :
    ownTmp pc = some path := by
  cases pc with
  | materialized _ own r =>
    cases r <;> cases h
    rfl
  | removing _ r | done r =>
    rcases r with _ | _ | _
    · cases h
    · cases h
    · exact h
  | _ => cases h

/-- A task that holds a slot is served by it. -/
theorem serves_of_holds (ht : s.tasks[t]? = some task) {slot : Nat}
    (h : task.pc.holds = some slot) : s.leases.Serves slot task.contentHash :=
  .inr (List.mem_of_getElem? (h ▸ getElem?_clients ht))

/-- A slot with a file is there. -/
theorem FileOf.lt (hk : s.leases.Keyed) {slot : Nat} {path : PathBuf} (h : s.FileOf slot path) :
    slot < s.downloads.slots.length := by
  rcases h with hr | ⟨task, hmem, hfile⟩
  · rw [result] at hr
    obtain ⟨ds, hds, -⟩ := Option.bind_eq_some_iff.mp hr
    exact (List.getElem?_eq_some_iff.mp hds).1
  · obtain ⟨t, ht⟩ := List.mem_iff_getElem?.mp hmem
    have hlt := hk.lt (serves_of_holds ht (holds_of_sharedFile hfile))
    rwa [leases, List.length_map] at hlt

/-! ## What a step does to the files -/

/-- The task at `pc'` knows no more of the files than the one at `pc` and the results. -/
structure Learns (s : SyncSystem) (pc pc' : Pc) : Prop where
  shared : ∀ slot path, sharedFile pc' = some (slot, path) →
    sharedFile pc = some (slot, path) ∨ s.result slot = some (.ok path)
  fetching : ∀ slot path, pc' = .fetching slot path → pc = .fetching slot path
  ownTmp_eq : ownTmp pc' = ownTmp pc
  ownFile_eq : ownFile pc' = ownFile pc
  removes : ∀ path ∈ pc'.removes, path ∈ pc.removes

/-- A step that leaves the files and their names alone. -/
structure Still (s s' : SyncSystem) : Prop where
  node_eq : s'.node = s.node
  nextRecvId_eq : s'.nextRecvId = s.nextRecvId
  sharedTmpPaths_eq : s'.sharedTmpPaths = s.sharedTmpPaths
  results : ∀ slot path, s'.result slot = some (.ok path) → s.FileOf slot path
  tasks : ∀ (t : Nat) (task' : Task), s'.tasks[t]? = some task' →
    ∃ task, s.tasks[t]? = some task ∧ task'.call = task.call ∧
      task'.contentHash = task.contentHash ∧ task'.entry = task.entry ∧ Learns s task.pc task'.pc

theorem Learns.rfl' (s : SyncSystem) (pc : Pc) : Learns s pc pc :=
  ⟨fun _ _ h ↦ .inl h, fun _ _ h ↦ h, rfl, rfl, fun _ h ↦ h⟩

/-- A task that knows nothing of the files. -/
theorem Learns.none {pc pc' : Pc} (hshared : sharedFile pc' = none)
    (hfetching : ∀ slot path, pc' ≠ .fetching slot path) (hown : ownTmp pc' = ownTmp pc)
    (hfile : ownFile pc' = ownFile pc) (hremoves : pc'.removes = []) : Learns s pc pc' :=
  ⟨by simp [hshared], fun _ _ h ↦ absurd h (hfetching _ _), hown, hfile, by simp [hremoves]⟩

/-- One task moves. -/
theorem still_setPc {s₁ : SyncSystem} (ht : s.tasks[t]? = some task) {pc : Pc}
    (hnode : s₁.node = s.node) (hid : s₁.nextRecvId = s.nextRecvId)
    (hshared : s₁.sharedTmpPaths = s.sharedTmpPaths) (htasks : s₁.tasks = s.tasks)
    (hresults : ∀ slot path, s₁.result slot = some (.ok path) → s.FileOf slot path)
    (hpc : Learns s task.pc pc) : Still s (s₁.setPc t pc) := by
  refine ⟨hnode, hid, hshared, hresults, fun u task' hu ↦ ?_⟩
  rw [getElem?_setPc, htasks] at hu
  obtain ⟨task₀, hu₀, rfl⟩ := Option.map_eq_some_iff.mp hu
  refine ⟨task₀, hu₀, ?_⟩
  split
  · next heq =>
    subst heq
    obtain rfl : task = task₀ := Option.some.inj (ht.symm.trans hu₀)
    exact ⟨rfl, rfl, rfl, hpc⟩
  · exact ⟨rfl, rfl, rfl, .rfl' s _⟩

theorem sharedFile_wake (pc : Pc) (slot : Nat) : sharedFile (pc.wake slot) = sharedFile pc := by
  cases pc <;> try rfl
  rw [Pc.wake]
  split <;> rfl

theorem still_notify (ht : s.tasks[t]? = some task) {slot : Nat} (hpc : task.pc = .stored slot) :
    Still s (s.notify t slot) := by
  refine ⟨rfl, rfl, rfl, fun j path hj ↦ .inl (result_notify slot j ▸ hj), fun u task' hu ↦ ?_⟩
  rw [getElem?_notify] at hu
  obtain ⟨task₀, hu₀, rfl⟩ := Option.map_eq_some_iff.mp hu
  refine ⟨task₀, hu₀, rfl, rfl, rfl, ?_⟩
  dsimp only
  split
  · next heq =>
    subst heq
    obtain rfl : task = task₀ := Option.some.inj (ht.symm.trans hu₀)
    rw [hpc]
    exact .none rfl nofun rfl rfl rfl
  · cases hw : task₀.pc with
    | parked j =>
      rw [Pc.wake]
      split
      · exact .none rfl nofun rfl rfl rfl
      · exact .rfl' s _
    | _ => exact .rfl' s _

/-- The last one out of a slot gets the shared file, if there is one. -/
theorem release_snd (contentHash : Hash) (slot : Nat) :
    (s.downloads.release contentHash slot).2 =
      if s.leases.IsLast contentHash slot then okPath (s.result slot) else none := by
  rw [DownloadCoordinator.release, result]
  cases hs : s.downloads.slots[slot]? with
  | none => rw [if_neg (by simp [Leases.IsLast, leases, hs])]
  | some ds =>
    have hlast : s.leases.IsLast contentHash slot ↔ ds.state.waiters - 1 = 0 ∧
        s.downloads.active contentHash = some slot := by
      simp [Leases.IsLast, leases, hs]
    dsimp only [DownloadCoordinator.modifyState]
    by_cases hw : ds.state.waiters - 1 = 0
    · rw [if_neg (not_not.mpr hw)]
      by_cases ha : s.downloads.active contentHash = some slot
      · rw [if_pos (hlast.mpr ⟨hw, ha⟩), if_pos ha]
        rfl
      · rw [if_neg fun h ↦ ha (hlast.mp h).2, if_neg ha]
    · rw [if_pos hw, if_neg fun h ↦ hw (hlast.mp h).1]

theorem release_eq_some {contentHash : Hash} {slot : Nat} {path : PathBuf}
    (h : (s.downloads.release contentHash slot).2 = some path) :
    s.leases.IsLast contentHash slot ∧ s.result slot = some (.ok path) := by
  rw [release_snd] at h
  split at h
  · next hlast => exact ⟨hlast, okPath_eq_some h⟩
  · cases h

variable [Blake3] {pid : Nat}

/-- What the step of a task does to the files. -/
inductive FileStep (pid : Nat) (s : SyncSystem) (t : Nat) (task : Task) : SyncSystem → Prop where
  /-- A leader names the shared file. -/
  | naming {slot : Nat} (hpc : task.pc = .naming slot) :
    FileStep pid s t task (setPc { s with
      nextRecvId := s.nextRecvId + 1
      sharedTmpPaths := s.nameTmp pid task.entry :: s.sharedTmpPaths } t
        (.fetching slot (s.nameTmp pid task.entry)))
  /-- A leader downloads it. -/
  | fetched {slot : Nat} {tmp : PathBuf} {content : List UInt8} {mode : UInt32}
    {time : Nat}
    (hpc : task.pc = .fetching slot tmp) (hdigest : Blake3.digest content = task.contentHash) :
    FileStep pid s t task ((s.create tmp ⟨content, mode, time⟩).setPc t (.fetched slot (.ok tmp)))
  /-- A task names its own file. -/
  | ownNaming {slot : Nat} {shared : PathBuf} (hpc : task.pc = .ownNaming slot shared) :
    FileStep pid s t task (setPc { s with nextRecvId := s.nextRecvId + 1 } t
      (.materializing slot shared (s.nameTmp pid task.entry)))
  /-- It links the shared file. -/
  | linked {slot i : Nat} {shared own : PathBuf} (hpc : task.pc = .materializing slot shared own)
    (hi : s.disk.Names i shared) :
    FileStep pid s t task ((s.withDisk (s.disk.put own (.file i))).setPc t
      (.materialized slot own (.ok ())))
  /-- It copies the shared file. -/
  | copied {slot i mtime : Nat} {shared own : PathBuf}
    (hpc : task.pc = .materializing slot shared own) (hi : s.disk.Names i shared) :
    FileStep pid s t task ((s.create own { s.disk.inode i with mtime }).setPc t
      (.materialized slot own (.ok ())))
  /-- A task releases its slot. -/
  | finish {slot : Nat} {paths : List PathBuf} {r : Except Str (Option PathBuf)}
    (hpc : task.pc.releases = some slot) (hfile : ownFile (.done r) = ownFile task.pc)
    (hown : ∀ path ∈ ownTmp (.done r), ownTmp task.pc = some path)
    (hpaths : ∀ path ∈ paths, ownTmp task.pc = some path ∧ ownTmp (.done r) = none) :
    FileStep pid s t task (s.finish t slot task.contentHash paths r)
  /-- It removes a file. -/
  | removed {path : PathBuf} {paths : List PathBuf} {r : Except Str (Option PathBuf)}
    (hpc : task.pc = .removing (path :: paths) r) :
    FileStep pid s t task ((s.remove path).setPc t (.removing paths r))
  | still {s' : SyncSystem} (h : Still s s') : FileStep pid s t task s'

theorem fileStep_of_runTask {weather : Weather} (ht : s.tasks[t]? = some task)
    (h : s.runTask pid t task weather = some s') : FileStep pid s t task s' := by
  have hresults (slot : Nat) (path : PathBuf) (hr : s.result slot = some (.ok path)) :
      s.FileOf slot path := .inl hr
  rw [SyncSystem.runTask] at h
  cases hpc : task.pc with rw [hpc] at h
  | spawned =>
    dsimp only at h
    split at h <;> cases h
    refine .still (still_setPc ht rfl rfl rfl rfl (fun slot path hr ↦ .inl ?_) ?_)
    · exact @result_start _ t task _ _ hr
    · rw [hpc]
      split <;> exact .none rfl (by simp) rfl rfl rfl
  | naming slot =>
    obtain rfl := Option.some.inj h
    exact .naming hpc
  | fetching slot tmp =>
    obtain rfl := Option.some.inj h
    have hfail (err : Str) : Still s (s.setPc t (.fetched slot (.error err))) :=
      still_setPc ht rfl rfl rfl rfl hresults (by rw [hpc]; exact .none rfl (by simp) rfl rfl rfl)
    rw [SyncSystem.fetch.eq_def]
    split
    · split
      · next hok => exact .fetched hpc hok.2
      · exact .still (hfail _)
    · exact .still (hfail _)
  | fetched slot r =>
    obtain rfl := Option.some.inj h
    refine .still (still_setPc ht rfl rfl rfl rfl (fun j path hj ↦ ?_)
      (by rw [hpc]; exact .none rfl (by simp) rfl rfl rfl))
    rw [result, getElem?_modifyState] at hj
    cases hs : s.downloads.slots[j]? with
    | none =>
      rw [hs] at hj
      cases hj
    | some ds =>
      rw [hs, Option.map_some, Option.bind_some] at hj
      split at hj
      · next heq =>
        obtain rfl := Option.some.inj hj
        refine .inr ⟨task, List.mem_of_getElem? ht, ?_⟩
        rw [hpc, heq]
        rfl
      · refine .inl ?_
        rw [result, hs]
        exact hj
  | stored slot =>
    obtain rfl := Option.some.inj h
    exact .still (still_notify ht hpc)
  | reading slot =>
    obtain rfl := Option.some.inj h
    refine .still (still_setPc ht rfl rfl rfl rfl hresults ?_)
    rw [hpc, afterRead]
    split
    · next path hr =>
      refine ⟨fun j path' hj ↦ .inr ?_, by simp, rfl, rfl, fun _ hp ↦ hp⟩
      cases hj
      exact hr
    · exact .none rfl (by simp) rfl rfl rfl
    · exact .none rfl (by simp) rfl rfl rfl
  | sawNone slot =>
    obtain rfl := Option.some.inj h
    exact .still (still_setPc ht rfl rfl rfl rfl hresults
      (by rw [hpc]; exact .none rfl (by simp) rfl rfl rfl))
  | parked slot => cases h
  | failing slot err =>
    obtain rfl := Option.some.inj h
    exact .finish (by rw [hpc]; rfl) (by rw [hpc]; rfl) (by simp [ownTmp]) (by simp)
  | claiming slot shared =>
    have hd := tends_claimTarget s.downloads slot task.entry
    dsimp only at h
    generalize s.downloads.claimTarget slot task.entry = r at h hd
    obtain ⟨d, claimed⟩ := r
    obtain rfl := Option.some.inj h
    refine .still (still_setPc ht rfl rfl rfl rfl (fun j path hj ↦ .inl ?_) ?_)
    · exact (@Tends.result_eq s { s with downloads := d } hd j).symm.trans hj
    · rw [hpc]
      cases claimed with
      | true => exact ⟨fun _ _ hj ↦ .inl hj, by simp, rfl, rfl, fun _ hp ↦ hp⟩
      | false => exact .none rfl (by simp) rfl rfl rfl
  | declined slot =>
    obtain rfl := Option.some.inj h
    exact .finish (by rw [hpc]; rfl) (by rw [hpc]; rfl) (by simp [ownTmp]) (by simp)
  | ownNaming slot shared =>
    obtain rfl := Option.some.inj h
    exact .ownNaming hpc
  | materializing slot shared own =>
    obtain rfl := Option.some.inj h
    have hfail (err : Str) : Still s (s.setPc t (.materialized slot own (.error err))) :=
      still_setPc ht rfl rfl rfl rfl hresults (by rw [hpc]; exact .none rfl (by simp) rfl rfl rfl)
    split
    · next i hi =>
      split
      · exact .linked hpc hi
      · split
        · exact .copied hpc hi
        · exact .still (hfail _)
    · exact .still (hfail _)
  | materialized slot own r =>
    cases r with
    | ok =>
      obtain rfl := Option.some.inj h
      refine .finish (by rw [hpc]; rfl) (by rw [hpc]; rfl) ?_ (by simp)
      rw [hpc]
      exact fun _ hp ↦ hp
    | error err =>
      obtain rfl := Option.some.inj h
      refine .finish (by rw [hpc]; rfl) (by rw [hpc]; rfl) (by simp [ownTmp]) fun path hp ↦ ⟨?_, rfl⟩
      rw [hpc, List.mem_singleton.mp hp]
      rfl
  | removing paths r =>
    cases paths with
    | nil =>
      obtain rfl := Option.some.inj h
      refine .still (still_setPc ht rfl rfl rfl rfl hresults ?_)
      rw [hpc]
      refine .none rfl (by simp) (ownTmp_removing [] r).symm ?_ rfl
      rcases r with _ | _ | _ <;> rfl
    | cons path paths =>
      obtain rfl := Option.some.inj h
      exact .removed hpc
  | done r => cases h
  | aborted => cases h

/-! ## Owners -/

/-- What the task `t` knows at its program counter is about the files of its slot
and its own. -/
structure PcOwns (pid : Nat) (owner : PathBuf → Nat) (s : SyncSystem) (t : Nat) (pc : Pc) :
    Prop where
  shared : ∀ slot path, sharedFile pc = some (slot, path) → owner path = slot
  fetching : ∀ slot path, pc = .fetching slot path → owner path = slot
  own : ∀ path ∈ ownTmp pc, owner path = t
  removes : ∀ path ∈ pc.removes,
    path ∈ s.sharedTmpPaths ∨ Own pid s path ∧ owner path = t ∧ ownTmp pc = none

/-- A shared file is that of one slot, and any other file that of one task. -/
structure Owned (pid : Nat) (s : SyncSystem) (owner : PathBuf → Nat) : Prop where
  results : ∀ slot path, s.result slot = some (.ok path) → owner path = slot
  tasks : ∀ (t : Nat) (task : Task), s.tasks[t]? = some task → PcOwns pid owner s t task.pc

theorem Owned.fileOf {owner : PathBuf → Nat} (h : Owned pid s owner) {slot : Nat} {path : PathBuf}
    (hfile : s.FileOf slot path) : owner path = slot := by
  rcases hfile with hr | ⟨task, hmem, hfile⟩
  · exact h.results slot path hr
  · obtain ⟨t, ht⟩ := List.mem_iff_getElem?.mp hmem
    exact (h.tasks t task ht).shared slot path hfile

theorem Named.fileOf (h : Named pid s) {slot : Nat} {path : PathBuf} (hfile : s.FileOf slot path) :
    path ∈ s.sharedTmpPaths := by
  rcases hfile with hr | ⟨task, hmem, hfile⟩
  · exact h.results slot path hr
  · obtain ⟨t, ht⟩ := List.mem_iff_getElem?.mp hmem
    exact (h.tasks t task ht).shared path (sharedTmp_of_sharedFile hfile)

theorem Own.of_sameNames {path : PathBuf} (hp : Own pid s path) (h : SameNames s s') :
    Own pid s' path :=
  ⟨h.givenOut hp.givenOut, h.sharedTmpPaths_eq ▸ hp.ne⟩

/-- The files that were named keep their owners. -/
structure Keeps (pid : Nat) (s s' : SyncSystem) (owner owner' : PathBuf → Nat) : Prop where
  owner_eq : ∀ path, GivenOut pid s path → owner' path = owner path
  own : ∀ path, Own pid s path → Own pid s' path
  shared : ∀ path ∈ s.sharedTmpPaths, path ∈ s'.sharedTmpPaths

theorem SameNames.keeps (h : SameNames s s') (owner : PathBuf → Nat) :
    Keeps pid s s' owner owner :=
  ⟨fun _ _ ↦ rfl, fun _ hp ↦ hp.of_sameNames h, fun path hp ↦ by rwa [h.sharedTmpPaths_eq]⟩

omit [Blake3] in
theorem Still.sameNames (h : Still s s') : SameNames s s' :=
  ⟨congrArg (fun node ↦ node.folder.root) h.node_eq, h.nextRecvId_eq.ge, h.sharedTmpPaths_eq⟩

/-- The next name gets an owner. -/
theorem keeps_update {owner : PathBuf → Nat} (hroot : s'.root = s.root)
    (hid : s'.nextRecvId = s.nextRecvId + 1) (entry : Entry) (o : Nat)
    (hshared : s'.sharedTmpPaths = s.sharedTmpPaths ∨
      s'.sharedTmpPaths = s.nameTmp pid entry :: s.sharedTmpPaths) :
    Keeps pid s s' owner (Function.update owner (s.nameTmp pid entry) o) := by
  refine ⟨fun path hp ↦ Function.update_of_ne ?_ .., fun path hp ↦ ⟨?_, fun p hmem ↦ ?_⟩,
    fun path hp ↦ ?_⟩
  · rintro rfl
    exact hp.getLast?_ne entry rfl
  · obtain ⟨id, entry', hlt, rfl⟩ := hp.givenOut
    exact ⟨id, entry', hid ▸ hlt.trans (Nat.lt_succ_self _), by rw [hroot]⟩
  · rcases hshared with heq | heq <;> rw [heq] at hmem
    · exact hp.ne p hmem
    · rcases List.mem_cons.mp hmem with rfl | hmem
      · exact (hp.givenOut.getLast?_ne entry).symm
      · exact hp.ne p hmem
  · rcases hshared with heq | heq <;> rw [heq]
    · exact hp
    · exact List.mem_cons_of_mem _ hp

variable {owner owner' : PathBuf → Nat}

theorem PcOwns.mono {pc : Pc} (h : PcOwns pid owner s t pc) (hn : Named pid s)
    (hpc : PcNamed pid s pc) (hkeeps : Keeps pid s s' owner owner') : PcOwns pid owner' s' t pc where
  shared slot path hfile := by
    rw [hkeeps.owner_eq path (hn.givenOut path (hpc.shared path (sharedTmp_of_sharedFile hfile)))]
    exact h.shared slot path hfile
  fetching slot path heq := by
    rw [hkeeps.owner_eq path (hn.givenOut path (hpc.shared path (by rw [heq]; rfl)))]
    exact h.fetching slot path heq
  own path hp := by
    rw [hkeeps.owner_eq path (hpc.own path hp).givenOut]
    exact h.own path hp
  removes path hp := by
    rcases h.removes path hp with hs | ⟨ho, heq, hnone⟩
    · exact .inl (hkeeps.shared path hs)
    · refine .inr ⟨hkeeps.own path ho, ?_, hnone⟩
      rw [hkeeps.owner_eq path ho.givenOut]
      exact heq

/-- One task moves, and what it knows then is about its own files. -/
theorem Owned.move (h : Owned pid s owner) (hn : Named pid s)
    (hkeeps : Keeps pid s s' owner owner') {pc : Pc} (htasks : s'.tasks = (s.setPc t pc).tasks)
    (hresults : ∀ slot path, s'.result slot = some (.ok path) → s.result slot = some (.ok path))
    (hpc : PcOwns pid owner' s' t pc) : Owned pid s' owner' := by
  refine ⟨fun slot path hr ↦ ?_, fun u task' hu ↦ ?_⟩
  · have hold := hresults slot path hr
    rw [hkeeps.owner_eq path (hn.givenOut path (hn.results slot path hold))]
    exact h.results slot path hold
  · rw [htasks, getElem?_setPc] at hu
    obtain ⟨task₀, hu₀, rfl⟩ := Option.map_eq_some_iff.mp hu
    split
    · next heq => exact heq ▸ hpc
    · exact (h.tasks u task₀ hu₀).mono hn (hn.tasks u task₀ hu₀) hkeeps

theorem Owned.still (h : Owned pid s owner) (hs : Still s s') : Owned pid s' owner := by
  refine ⟨fun slot path hr ↦ h.fileOf (hs.results slot path hr), fun u task' hu ↦ ?_⟩
  obtain ⟨task₀, hu₀, -, -, -, hl⟩ := hs.tasks u task' hu
  have hpc := h.tasks u task₀ hu₀
  refine ⟨fun slot path hfile ↦ ?_, fun slot path heq ↦ hpc.fetching slot path
    (hl.fetching slot path heq), fun path hp ↦ hpc.own path (hl.ownTmp_eq ▸ hp), fun path hp ↦ ?_⟩
  · rcases hl.shared slot path hfile with hold | hr
    · exact hpc.shared slot path hold
    · exact h.results slot path hr
  · rcases hpc.removes path (hl.removes path hp) with hshared | ⟨hown, heq, hnone⟩
    · exact .inl (hs.sharedTmpPaths_eq ▸ hshared)
    · exact .inr ⟨hown.of_sameNames hs.sameNames, heq, hl.ownTmp_eq ▸ hnone⟩

/-- A step in which no file is named. -/
theorem Owned.same (h : Owned pid s owner) (hn : Named pid s) (hs : SameNames s s') {pc : Pc}
    (htasks : s'.tasks = (s.setPc t pc).tasks)
    (hresults : ∀ slot path, s'.result slot = some (.ok path) → s.result slot = some (.ok path))
    (hpc : PcOwns pid owner s' t pc) :
    ∃ owner', Owned pid s' owner' ∧ Keeps pid s s' owner owner' :=
  ⟨owner, h.move hn (hs.keeps owner) htasks hresults hpc, hs.keeps owner⟩

/-- A step in which a file is named for `o`. -/
theorem Owned.new (h : Owned pid s owner) (hn : Named pid s) {entry : Entry} {o : Nat}
    (hkeeps : Keeps pid s s' owner (Function.update owner (s.nameTmp pid entry) o)) {pc : Pc}
    (htasks : s'.tasks = (s.setPc t pc).tasks)
    (hresults : ∀ slot path, s'.result slot = some (.ok path) → s.result slot = some (.ok path))
    (hpc : PcOwns pid (Function.update owner (s.nameTmp pid entry) o) s' t pc) :
    ∃ owner', Owned pid s' owner' ∧ Keeps pid s s' owner owner' :=
  ⟨_, h.move hn hkeeps htasks hresults hpc, hkeeps⟩

/-- The step of a task keeps the owners. -/
theorem Owned.fileStep (h : Owned pid s owner) (hn : Named pid s) (ht : s.tasks[t]? = some task)
    (hstep : FileStep pid s t task s') :
    ∃ owner', Owned pid s' owner' ∧ Keeps pid s s' owner owner' := by
  have hpcn := hn.tasks t task ht
  have hpco := h.tasks t task ht
  cases hstep with
  | @naming slot hpc =>
    refine h.new hn (keeps_update (by rfl) (by rfl) task.entry slot (.inr (by rfl))) rfl (fun _ _ hr ↦ hr)
      ⟨nofun, ?_, nofun, nofun⟩
    rintro _ _ ⟨⟩
    exact Function.update_self ..
  | @fetched slot tmp content mode time hpc hdigest =>
    refine h.same hn ⟨rfl, le_rfl, rfl⟩ rfl (fun _ _ hr ↦ hr) ⟨?_, nofun, nofun, nofun⟩
    rintro _ _ ⟨⟩
    exact hpco.fetching slot tmp hpc
  | @ownNaming slot shared hpc =>
    have hfile : sharedFile task.pc = some (slot, shared) := by
      rw [hpc]
      rfl
    have hgiven := hn.givenOut shared (hpcn.shared shared (sharedTmp_of_sharedFile hfile))
    refine h.new hn (keeps_update (by rfl) (by rfl) task.entry t (.inl (by rfl))) rfl (fun _ _ hr ↦ hr)
      ⟨?_, nofun, ?_, nofun⟩
    · rintro _ _ ⟨⟩
      refine (Function.update_of_ne ?_ ..).trans (hpco.shared slot shared hfile)
      rintro rfl
      exact hgiven.getLast?_ne task.entry rfl
    · rintro _ ⟨⟩
      exact Function.update_self ..
  | @linked slot i shared own hpc hi =>
    rw [hpc] at hpco
    exact h.same hn ⟨rfl, le_rfl, rfl⟩ rfl (fun _ _ hr ↦ hr) ⟨nofun, nofun, hpco.own, nofun⟩
  | @copied slot i mtime shared own hpc hi =>
    rw [hpc] at hpco
    exact h.same hn ⟨rfl, le_rfl, rfl⟩ rfl (fun _ _ hr ↦ hr) ⟨nofun, nofun, hpco.own, nofun⟩
  | @finish slot paths r hpc hfile hown hpaths =>
    have hresults := @Tends.result_eq s (s.finish t slot task.contentHash paths r)
      (tends_release s.downloads task.contentHash slot)
    refine h.same hn ⟨rfl, le_rfl, rfl⟩ rfl (fun j path hr ↦ hresults j ▸ hr)
      ⟨nofun, nofun, fun path hp ↦ ?_, fun path hp ↦ ?_⟩
    · rw [ownTmp_removing] at hp
      exact hpco.own path (hown path hp)
    · rcases List.mem_append.mp hp with hrel | hp
      · exact .inl (hn.results slot path (release_eq_some (Option.mem_toList.mp hrel)).2)
      · obtain ⟨htmp, hnone⟩ := hpaths path hp
        exact .inr ⟨(hpcn.own path htmp).of_sameNames ⟨rfl, le_rfl, rfl⟩, hpco.own path htmp,
          (ownTmp_removing _ r).trans hnone⟩
  | @removed path paths r hpc =>
    rw [hpc] at hpco
    refine h.same hn ⟨rfl, le_rfl, rfl⟩ rfl (fun _ _ hr ↦ hr)
      ⟨nofun, nofun, fun p hp ↦ ?_, fun p hp ↦ ?_⟩
    · rw [ownTmp_removing] at hp
      exact hpco.own p (by rwa [ownTmp_removing])
    · have hold := hpco.removes p (List.mem_cons_of_mem _ hp)
      rw [ownTmp_removing] at hold ⊢
      exact hold.imp_right fun ⟨hown, hrest⟩ ↦ ⟨hown.of_sameNames ⟨rfl, le_rfl, rfl⟩, hrest⟩
  | still hs => exact ⟨owner, h.still hs, hs.sameNames.keeps owner⟩

/-- A step other than that of a task: the tasks stand where they stood, are new, or are
aborted. -/
structure Rests (s s' : SyncSystem) : Prop where
  names : SameNames s s'
  results : ∀ slot path, s'.result slot = some (.ok path) → s.result slot = some (.ok path)
  tasks : ∀ (t : Nat) (task' : Task), s'.tasks[t]? = some task' →
    (∃ task, s.tasks[t]? = some task ∧ task'.contentHash = task.contentHash ∧ task'.pc = task.pc) ∨
      task'.pc = .spawned ∨ task'.pc = .aborted

omit [Blake3] in
theorem Rests.fileOf (h : Rests s s') {slot : Nat} {path : PathBuf} (hfile : s'.FileOf slot path) :
    s.FileOf slot path := by
  rcases hfile with hr | ⟨task', hmem, hf⟩
  · exact .inl (h.results slot path hr)
  · obtain ⟨t, ht⟩ := List.mem_iff_getElem?.mp hmem
    rcases h.tasks t task' ht with ⟨task, ht₀, -, hpc⟩ | hpc | hpc <;> rw [hpc] at hf
    · exact .inr ⟨task, List.mem_of_getElem? ht₀, hf⟩
    · cases hf
    · cases hf

theorem Owned.rests (h : Owned pid s owner) (hs : Rests s s') : Owned pid s' owner := by
  refine ⟨fun slot path hr ↦ h.results slot path (hs.results slot path hr), fun t task' ht ↦ ?_⟩
  rcases hs.tasks t task' ht with ⟨task, ht₀, -, hpc⟩ | hpc | hpc <;> rw [hpc]
  · have ho := h.tasks t task ht₀
    refine ⟨ho.shared, ho.fetching, ho.own, fun path hp ↦ ?_⟩
    rcases ho.removes path hp with hmem | ⟨hown, hrest⟩
    · exact .inl (hs.names.sharedTmpPaths_eq ▸ hmem)
    · exact .inr ⟨hown.of_sameNames hs.names, hrest⟩
  · exact ⟨by simp [sharedFile], by simp, by simp [ownTmp], by simp [Pc.removes]⟩
  · exact ⟨by simp [sharedFile], by simp, by simp [ownTmp], by simp [Pc.removes]⟩

/-- The other steps are no steps of tasks. -/
theorem Named.rests_next (hn : Named pid s) {act : SyncAct}
    (hact : ∀ t weather, act ≠ .run t weather) (h : s.next pid act = some s') : Rests s s' := by
  cases act with
  | spawn call contentHash entry =>
    rw [SyncSystem.next] at h
    split at h <;> cases h
    refine ⟨⟨rfl, le_rfl, rfl⟩, fun _ _ hr ↦ hr, fun t task' ht ↦ ?_⟩
    rcases getElem?_of_append ht with ht | rfl
    · exact .inl ⟨task', ht, rfl, rfl⟩
    · exact .inr (.inl rfl)
  | run t weather => exact absurd rfl (hact t weather)
  | fail call =>
    obtain rfl := Option.some.inj h
    exact ⟨⟨rfl, le_rfl, rfl⟩, fun _ _ hr ↦ hr, fun t task' ht ↦ .inl ⟨task', ht, rfl, rfl⟩⟩
  | abort t =>
    obtain ⟨task, ht, habort⟩ := Option.bind_eq_some_iff.mp h
    split at habort <;> cases habort
    refine ⟨⟨rfl, le_rfl, rfl⟩, fun _ _ hr ↦ hr, fun u task' hu ↦ ?_⟩
    rw [getElem?_setPc] at hu
    obtain ⟨task₀, hu₀, rfl⟩ := Option.map_eq_some_iff.mp hu
    split
    · exact .inr (.inr rfl)
    · exact .inl ⟨task₀, hu₀, rfl, rfl⟩
  | install ts =>
    have hroot := (hn.tidy_install ts).root_eq
    obtain rfl := Option.some.inj h
    exact ⟨⟨hroot, le_rfl, rfl⟩, fun _ _ hr ↦ hr, fun t task' ht ↦ .inl ⟨task', ht, rfl, rfl⟩⟩

/-! ## Files after a step -/

/-- Paths that were given out are not inside each other. -/
theorem GivenOut.eq_of_inside {p q : PathBuf} (hq : GivenOut pid s q) (hp : GivenOut pid s p)
    (h : q <+: p) : q = p := by
  obtain ⟨id, entry, -, rfl⟩ := hq
  obtain ⟨id', entry', -, rfl⟩ := hp
  refine h.eq_of_length ?_
  rw [tmpRecvPath_eq, tmpRecvPath_eq, List.length_append, List.length_append]
  rfl

theorem PcNamed.ne_nil {pc : Pc} (hn : Named pid s) (h : PcNamed pid s pc) {path : PathBuf}
    (hp : sharedTmp pc = some path ∨ ownTmp pc = some path) : path ≠ [] := by
  rcases hp with hp | hp
  · exact (hn.givenOut path (h.shared path hp)).ne_nil
  · exact (h.own path hp).ne_nil

/-- A shared file that is known after a step was known before it, or it has just
been downloaded. -/
theorem FileStep.fileOf (h : FileStep pid s t task s') (ht : s.tasks[t]? = some task) {slot : Nat}
    {path : PathBuf} (hfile : s'.FileOf slot path) :
    s.FileOf slot path ∨ ∃ (content : List UInt8) (mode : UInt32) (time : Nat),
      task.pc = .fetching slot path ∧ Blake3.digest content = task.contentHash ∧
        s' = (s.create path ⟨content, mode, time⟩).setPc t (.fetched slot (.ok path)) := by
  -- a task that moves, over results that were there
  have hmove {pc : Pc} {s₁ : SyncSystem} (hf : s₁.FileOf slot path)
      (htasks : s₁.tasks = (s.setPc t pc).tasks)
      (hresults : ∀ slot path, s₁.result slot = some (.ok path) → s.result slot = some (.ok path)) :
      s.FileOf slot path ∨ sharedFile pc = some (slot, path) := by
    rcases hf with hr | ⟨task', hmem, hf⟩
    · exact .inl (.inl (hresults slot path hr))
    · obtain ⟨u, hu⟩ := List.mem_iff_getElem?.mp hmem
      rw [htasks, getElem?_setPc] at hu
      obtain ⟨task₀, hu₀, rfl⟩ := Option.map_eq_some_iff.mp hu
      split at hf
      · exact .inr hf
      · exact .inl (.inr ⟨task₀, List.mem_of_getElem? hu₀, hf⟩)
  cases h with
  | naming hpc => exact .inl ((hmove hfile rfl fun _ _ hr ↦ hr).resolve_right nofun)
  | fetched hpc hdigest =>
    rcases hmove hfile rfl fun _ _ hr ↦ hr with hold | hnew
    · exact .inl hold
    · cases hnew
      exact .inr ⟨_, _, _, hpc, hdigest, rfl⟩
  | ownNaming hpc =>
    rcases hmove hfile rfl fun _ _ hr ↦ hr with hold | hnew
    · exact .inl hold
    · refine .inl (.inr ⟨task, List.mem_of_getElem? ht, ?_⟩)
      rw [hpc]
      exact hnew
  | linked hpc hi => exact .inl ((hmove hfile rfl fun _ _ hr ↦ hr).resolve_right nofun)
  | copied hpc hi => exact .inl ((hmove hfile rfl fun _ _ hr ↦ hr).resolve_right nofun)
  | @finish j paths r hpc hf hown hpaths =>
    have hresults := @Tends.result_eq s (s.finish t j task.contentHash paths r)
      (tends_release s.downloads task.contentHash j)
    exact .inl ((hmove hfile rfl fun k path hr ↦ hresults k ▸ hr).resolve_right nofun)
  | removed hpc => exact .inl ((hmove hfile rfl fun _ _ hr ↦ hr).resolve_right nofun)
  | still hs =>
    rcases hfile with hr | ⟨task', hmem, hf⟩
    · exact .inl (hs.results slot path hr)
    · obtain ⟨u, hu⟩ := List.mem_iff_getElem?.mp hmem
      obtain ⟨task₀, hu₀, -, -, -, hl⟩ := hs.tasks u task' hu
      rcases hl.shared slot path hf with hold | hr
      · exact .inl (.inr ⟨task₀, List.mem_of_getElem? hu₀, hold⟩)
      · exact .inl (.inl hr)

omit [Blake3] in
theorem exists_names_put {d : Disk} {p q : PathBuf} {i : Nat} (hq : q ≠ [])
    (hp : ∃ j, d.Names j p) : ∃ j, (d.put q (.file i)).Names j p := by
  obtain ⟨j, hj⟩ := hp
  by_cases heq : q = p
  · exact ⟨i, by rw [Names, obj_put d hq, if_pos heq]⟩
  · exact ⟨j, by rw [Names, obj_put d hq, if_neg heq]; exact hj⟩

/-- A file stays where it is unless it is removed. -/
theorem FileStep.exists_names (h : FileStep pid s t task s') (hn : Named pid s)
    (ht : s.tasks[t]? = some task) {p : PathBuf} (hp : ∃ i, s.disk.Names i p)
    (hremoves : ∀ q ∈ task.pc.removes, ¬ q <+: p) : ∃ i, s'.disk.Names i p := by
  have hpcn := hn.tasks t task ht
  cases h with
  | naming hpc => exact hp
  | fetched hpc hdigest =>
    exact exists_names_put (hpcn.ne_nil hn (.inl (by rw [hpc]; rfl))) hp
  | ownNaming hpc => exact hp
  | linked hpc hi => exact exists_names_put (hpcn.ne_nil hn (.inr (by rw [hpc]; rfl))) hp
  | copied hpc hi => exact exists_names_put (hpcn.ne_nil hn (.inr (by rw [hpc]; rfl))) hp
  | finish hpc hfile hown hpaths => exact hp
  | @removed path paths r hpc =>
    obtain ⟨i, hi⟩ := hp
    refine ⟨i, ?_⟩
    change (s.disk.clear path).obj p = _
    rw [obj_clear _ hi.ne_nil, if_neg (hremoves path (by rw [hpc]; exact List.mem_cons_self))]
    exact hi
  | still hs =>
    rw [disk, hs.node_eq]
    exact hp

end SyncSystem

end Lilsync
