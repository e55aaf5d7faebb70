import Lilsync.Lib.Posix.Contents
import Lilsync.Sync.Files

/-!
# Downloads are verified

What a task hands over to be installed has the content its entry asks for: the
leader of its slot has hashed it, and linking or copying the shared file does not
change it (`Verified`).  This needs that nothing but the tasks touches the temporary
files they have to do with (`InUse`).
-/

namespace Lilsync

open Lilsync.Lib Lilsync.Lib.Proc Lilsync.Lib.Posix Lilsync.Lib.Posix.Disk

namespace SyncSystem

variable {s s' : SyncSystem} {t : Nat} {task : Task}

/-! ## Contents after a step -/

theorem contentAt_create (s : SyncSystem) {path : PathBuf} (hp : path ≠ []) (inode : Inode)
    (q : PathBuf) : (s.create path inode).disk.contentAt q =
      if path = q then some inode.content else s.disk.contentAt q :=
  Disk.contentAt_create hp (not_names_freshInode s.disk) inode q

theorem ownFile_removing (paths : List PathBuf) (result : Except Str (Option PathBuf)) :
    ownFile (.removing paths result) = ownFile (.done result) := by
  rcases result with _ | _ | _ <;> rfl

variable [Blake3] {pid : Nat}

/-- How a step of a task changes what is at a path. -/
inductive Rewrites (s s' : SyncSystem) (task : Task) (path : PathBuf) : Prop where
  | same (heq : s'.disk.contentAt path = s.disk.contentAt path)
  | fetched {slot : Nat} {content : List UInt8} (hpc : task.pc = .fetching slot path)
    (hdigest : Blake3.digest content = task.contentHash)
    (heq : s'.disk.contentAt path = some content)
  | made {slot : Nat} {shared : PathBuf} {content : List UInt8}
    (hpc : task.pc = .materializing slot shared path)
    (hshared : s.disk.contentAt shared = some content)
    (heq : s'.disk.contentAt path = some content)
  | removed {q : PathBuf} (hq : q ∈ task.pc.removes) (hinside : q <+: path)
    (heq : s'.disk.contentAt path = none)

theorem FileStep.rewrites (h : FileStep pid s t task s') (hn : Named pid s)
    (ht : s.tasks[t]? = some task) {path : PathBuf} (hne : path ≠ []) :
    Rewrites s s' task path := by
  have hpcn := hn.tasks t task ht
  cases h with
  | naming hpc => exact .same rfl
  | @fetched slot tmp content mode time hpc hdigest =>
    have htmp := hpcn.ne_nil hn (.inl (by rw [hpc]; rfl) : sharedTmp task.pc = some tmp ∨ _)
    have heq := contentAt_create s htmp ⟨content, mode, time⟩ path
    split at heq
    · next hp =>
      subst hp
      exact .fetched hpc hdigest heq
    · exact .same heq
  | ownNaming hpc => exact .same rfl
  | @linked slot i shared own hpc hi =>
    have hown := hpcn.ne_nil hn (.inr (by rw [hpc]; rfl) : _ ∨ ownTmp task.pc = some own)
    have heq := contentAt_link hown hi path
    split at heq
    · next hp =>
      subst hp
      exact .made hpc hi.contentAt_eq (heq.trans hi.contentAt_eq)
    · exact .same heq
  | @copied slot i mtime shared own hpc hi =>
    have hown := hpcn.ne_nil hn (.inr (by rw [hpc]; rfl) : _ ∨ ownTmp task.pc = some own)
    have heq := contentAt_create s hown { s.disk.inode i with mtime } path
    split at heq
    · next hp =>
      subst hp
      exact .made hpc hi.contentAt_eq heq
    · exact .same heq
  | finish hpc hfile hown hpaths => exact .same rfl
  | @removed q paths r hpc =>
    have heq := contentAt_clear (d := s.disk) (p := q) hne
    split at heq
    · next hinside => exact .removed (by rw [hpc]; exact List.mem_cons_self) hinside heq
    · exact .same heq
  | still hs => exact .same (by rw [disk, hs.node_eq]; rfl)

/-- The file of its own that a task has after a step it had before, or it has just made
it. -/
theorem FileStep.ownFile (h : FileStep pid s t task s') (hn : Named pid s)
    (ht : s.tasks[t]? = some task) {u : Nat} {task' : Task} (hu : s'.tasks[u]? = some task')
    {path : PathBuf} (hfile : ownFile task'.pc = some path) :
    ∃ task₀, s.tasks[u]? = some task₀ ∧ task'.contentHash = task₀.contentHash ∧
      (SyncSystem.ownFile task₀.pc = some path ∨ t = u ∧ ∃ slot shared content,
        task.pc = .materializing slot shared path ∧ s.disk.contentAt shared = some content ∧
          s'.disk.contentAt path = some content) := by
  have hpcn := hn.tasks t task ht
  have hmove {pc : Pc} {s₁ : SyncSystem} (hu : s₁.tasks[u]? = some task')
      (htasks : s₁.tasks = (s.setPc t pc).tasks) :
      ∃ task₀, s.tasks[u]? = some task₀ ∧ task'.contentHash = task₀.contentHash ∧
        (SyncSystem.ownFile task₀.pc = some path ∨ t = u ∧ SyncSystem.ownFile pc = some path) := by
    rw [htasks, getElem?_setPc] at hu
    obtain ⟨task₀, hu₀, rfl⟩ := Option.map_eq_some_iff.mp hu
    refine ⟨task₀, hu₀, ?_⟩
    split at hfile
    · next heq => exact ⟨by rw [if_pos heq], .inr ⟨heq, hfile⟩⟩
    · next hne => exact ⟨by rw [if_neg hne], .inl hfile⟩
  -- a step that makes no file
  have hold {pc : Pc} {s₁ : SyncSystem} (hu : s₁.tasks[u]? = some task')
      (htasks : s₁.tasks = (s.setPc t pc).tasks) (hpc : SyncSystem.ownFile pc = some path →
        SyncSystem.ownFile task.pc = some path) :
      ∃ task₀, s.tasks[u]? = some task₀ ∧ task'.contentHash = task₀.contentHash ∧
        SyncSystem.ownFile task₀.pc = some path := by
    obtain ⟨task₀, hu₀, hhash, hown | ⟨rfl, hown⟩⟩ := hmove hu htasks
    · exact ⟨task₀, hu₀, hhash, hown⟩
    · obtain rfl : task = task₀ := Option.some.inj (ht.symm.trans hu₀)
      exact ⟨task, hu₀, hhash, hpc hown⟩
  cases h with
  | naming hpc | fetched hpc hdigest | ownNaming hpc =>
    obtain ⟨task₀, hu₀, hhash, hown⟩ := hold hu rfl (by simp [SyncSystem.ownFile])
    exact ⟨task₀, hu₀, hhash, .inl hown⟩
  | @linked slot i shared own hpc hi =>
    obtain ⟨task₀, hu₀, hhash, hown | ⟨rfl, hown⟩⟩ := hmove hu rfl
    · exact ⟨task₀, hu₀, hhash, .inl hown⟩
    · obtain rfl := Option.some.inj hown
      have hne := hpcn.ne_nil hn (.inr (by rw [hpc]; rfl) : _ ∨ ownTmp task.pc = some own)
      have heq := contentAt_link hne hi own
      rw [if_pos rfl] at heq
      exact ⟨task₀, hu₀, hhash, .inr ⟨rfl, slot, shared, _, hpc, hi.contentAt_eq,
        heq.trans hi.contentAt_eq⟩⟩
  | @copied slot i mtime shared own hpc hi =>
    obtain ⟨task₀, hu₀, hhash, hown | ⟨rfl, hown⟩⟩ := hmove hu rfl
    · exact ⟨task₀, hu₀, hhash, .inl hown⟩
    · obtain rfl := Option.some.inj hown
      have hne := hpcn.ne_nil hn (.inr (by rw [hpc]; rfl) : _ ∨ ownTmp task.pc = some own)
      have heq := contentAt_create s hne { s.disk.inode i with mtime } own
      rw [if_pos rfl] at heq
      exact ⟨task₀, hu₀, hhash, .inr ⟨rfl, slot, shared, _, hpc, hi.contentAt_eq, heq⟩⟩
  | finish hpc hfile' hown hpaths =>
    obtain ⟨task₀, hu₀, hhash, hown⟩ := hold hu rfl fun h ↦ by
      rw [← hfile']
      exact (ownFile_removing _ _).symm.trans h
    exact ⟨task₀, hu₀, hhash, .inl hown⟩
  | removed hpc =>
    obtain ⟨task₀, hu₀, hhash, hown⟩ := hold hu rfl fun h ↦ by
      rw [hpc, ownFile_removing]
      exact (ownFile_removing _ _).symm.trans h
    exact ⟨task₀, hu₀, hhash, .inl hown⟩
  | still hs =>
    obtain ⟨task₀, hu₀, -, hhash, -, hl⟩ := hs.tasks u task' hu
    exact ⟨task₀, hu₀, hhash, .inl (hl.ownFile_eq ▸ hfile)⟩

/-! ## Intact files -/

/-- The slots that serve an object after a step served it before, or are new. -/
theorem serves_next {act : SyncAct} (hnext : s.next pid act = some s') {slot : Nat} {hash : Hash}
    (h : s'.leases.Serves slot hash) :
    s.leases.Serves slot hash ∨ s.downloads.slots.length ≤ slot := by
  rcases next_leases hnext with heq | hstep | ⟨t, key, -, heq⟩
  · exact .inl (heq ▸ h)
  · obtain ⟨key₀, hserves⟩ := hstep.serves
    refine (hserves h).imp_right fun hnew ↦ ?_
    rw [hnew.1, leases, List.length_map]
  · rw [heq] at h
    exact .inl (Leases.serves_abandon h)

/-- Shared files of slots in use have the content that was asked for, and so do the files
that tasks have made, up to the ones that were installed. -/
structure Intact (s : SyncSystem) (installed : List Nat) : Prop where
  shared : ∀ slot path hash content, s.FileOf slot path → s.leases.Serves slot hash →
    s.disk.contentAt path = some content → Blake3.digest content = hash
  own : ∀ (t : Nat) (task : Task) path, s.tasks[t]? = some task → t ∉ installed →
    ownFile task.pc = some path → ∃ content, s.disk.contentAt path = some content ∧
      Blake3.digest content = task.contentHash

variable {owner : PathBuf → Nat} {installed installed' : List Nat}

/-- What a task rewrites of a shared file still has the content that was asked for. -/
theorem Intact.rewrites_shared (h : Intact s installed) (hn : Named pid s) (ho : Owned pid s owner)
    (hk : s.leases.Keyed) (ht : s.tasks[t]? = some task) {slot : Nat} {path : PathBuf}
    {hash : Hash} {content : List UInt8} (hr : Rewrites s s' task path)
    (hfile : s.FileOf slot path) (hserves : s.leases.Serves slot hash)
    (hcontent : s'.disk.contentAt path = some content) : Blake3.digest content = hash := by
  have hpcn := hn.tasks t task ht
  cases hr with
  | same heq => exact h.shared slot path hash content hfile hserves (heq ▸ hcontent)
  | @fetched slot' content' hpc hdigest heq =>
    obtain rfl := Option.some.inj (hcontent.symm.trans heq)
    obtain rfl : slot' = slot :=
      ((ho.tasks t task ht).fetching slot' path hpc).symm.trans (ho.fileOf hfile)
    have hholds : task.pc.holds = some slot' := by
      rw [hpc]
      rfl
    exact hdigest.trans (hk.unique (serves_of_holds ht hholds) hserves)
  | made hpc hshared heq =>
    have hown : Own pid s path := hpcn.own path (by rw [hpc]; rfl)
    exact absurd rfl (hown.ne path (hn.fileOf hfile))
  | removed hq hinside heq => cases hcontent.symm.trans heq

/-- No task rewrites the file that another one has made. -/
theorem Intact.rewrites_own (h : Intact s installed) (hn : Named pid s) (ho : Owned pid s owner)
    (ht : s.tasks[t]? = some task) {u : Nat} {task₀ : Task} (hu : s.tasks[u]? = some task₀)
    (hnot : u ∉ installed) {path : PathBuf} (hfile : ownFile task₀.pc = some path)
    (hr : Rewrites s s' task path) : ∃ content, s'.disk.contentAt path = some content ∧
      Blake3.digest content = task₀.contentHash := by
  have hown := (hn.tasks u task₀ hu).own path (ownTmp_of_ownFile hfile)
  have howner := (ho.tasks u task₀ hu).own path (ownTmp_of_ownFile hfile)
  have hpcn := hn.tasks t task ht
  have hpco := ho.tasks t task ht
  cases hr with
  | same heq =>
    rw [heq]
    exact h.own u task₀ path hu hnot hfile
  | fetched hpc hdigest heq =>
    exact absurd rfl (hown.ne path (hpcn.shared path (by rw [hpc]; rfl)))
  | made hpc hshared heq =>
    obtain rfl : t = u := (hpco.own path (by rw [hpc]; rfl)).symm.trans howner
    obtain rfl := Option.some.inj (ht.symm.trans hu)
    rw [hpc] at hfile
    cases hfile
  | @removed q hq hinside heq =>
    rcases hpco.removes q hq with hmem | ⟨hq', hqowner, hnone⟩
    · obtain rfl := (hn.givenOut q hmem).eq_of_inside hown.givenOut hinside
      exact absurd rfl (hown.ne q hmem)
    · obtain rfl := hq'.givenOut.eq_of_inside hown.givenOut hinside
      obtain rfl : t = u := hqowner.symm.trans howner
      obtain rfl := Option.some.inj (ht.symm.trans hu)
      cases hnone.symm.trans (ownTmp_of_ownFile hfile)

/-- The step of a task keeps the files intact. -/
theorem Intact.runTask (h : Intact s installed) (hn : Named pid s) (ho : Owned pid s owner)
    (hk : s.leases.Keyed) (ht : s.tasks[t]? = some task) {weather : Weather}
    (hrun : s.runTask pid t task weather = some s') : Intact s' installed := by
  have hstep := fileStep_of_runTask ht hrun
  have hnext : s.next pid (.run t weather) = some s' := by
    rw [SyncSystem.next, ht]
    exact hrun
  have hn' := hn.next hnext
  refine ⟨fun slot path hash content hfile hserves hcontent ↦ ?_,
    fun u task' path hu hnot hfile ↦ ?_⟩
  · have hne : path ≠ [] := (hn'.givenOut path (hn'.fileOf hfile)).ne_nil
    rcases hstep.fileOf ht hfile with hold | ⟨content', mode, time, hpc, hdigest, rfl⟩
    · have hserves₀ := (serves_next hnext hserves).resolve_right (Nat.not_le.mpr (hold.lt hk))
      exact h.rewrites_shared hn ho hk ht (hstep.rewrites hn ht hne) hold hserves₀ hcontent
    · have hholds : task.pc.holds = some slot := by
        rw [hpc]
        rfl
      have hheld := serves_of_holds ht hholds
      have hlt := hk.lt hheld
      rw [leases, List.length_map] at hlt
      have hserves₀ := (serves_next hnext hserves).resolve_right (Nat.not_le.mpr hlt)
      obtain rfl : content' = content := Option.some.inj
        (((contentAt_create s hne _ path).trans (if_pos rfl)).symm.trans hcontent)
      exact hdigest.trans (hk.unique hheld hserves₀)
  · obtain ⟨task₀, hu₀, hhash, hold | ⟨rfl, slot, shared, content, hpc, hshared, heq⟩⟩ :=
      hstep.ownFile hn ht hu hfile
    · have hne : path ≠ [] :=
        (hn.tasks u task₀ hu₀).ne_nil hn (.inr (ownTmp_of_ownFile hold))
      rw [hhash]
      exact h.rewrites_own hn ho ht hu₀ hnot hold (hstep.rewrites hn ht hne)
    · obtain rfl := Option.some.inj (ht.symm.trans hu₀)
      have hfile₀ : s.FileOf slot shared :=
        .inr ⟨task, List.mem_of_getElem? ht, by rw [hpc]; rfl⟩
      have hholds : task.pc.holds = some slot := by
        rw [hpc]
        rfl
      have hheld := serves_of_holds ht hholds
      rw [hhash]
      exact ⟨content, heq, h.shared slot shared _ content hfile₀ hheld hshared⟩

/-- A temporary file that a task still has to do with, or that is not installed yet. -/
inductive InUse (s : SyncSystem) (installed : List Nat) (path : PathBuf) : Prop where
  | result {slot : Nat} {hash : Hash} (hr : s.result slot = some (.ok path))
    (hs : s.leases.Serves slot hash)
  | shared {task : Task} (hmem : task ∈ s.tasks) (hp : sharedTmp task.pc = some path)
  | own {t : Nat} {task : Task} (ht : s.tasks[t]? = some task) (hnot : t ∉ installed)
    (hp : ownTmp task.pc = some path)

/-- Any other step keeps them intact, if it leaves the files in use alone. -/
theorem Intact.rests (h : Intact s installed) (hk : s.leases.Keyed) (hs : Rests s s')
    (hserves : ∀ slot hash, s'.leases.Serves slot hash →
      s.leases.Serves slot hash ∨ s.downloads.slots.length ≤ slot)
    (hsub : installed ⊆ installed')
    (hspares : ∀ path, InUse s installed' path → s'.disk.contentAt path = s.disk.contentAt path) :
    Intact s' installed' := by
  refine ⟨fun slot path hash content hfile hserved hcontent ↦ ?_,
    fun t task' path ht hnot hfile ↦ ?_⟩
  · have hold := hs.fileOf hfile
    have hserves₀ := (hserves slot hash hserved).resolve_right (Nat.not_le.mpr (hold.lt hk))
    have huse : InUse s installed' path := by
      rcases hold with hr | ⟨task, hmem, hf⟩
      · exact .result hr hserves₀
      · exact .shared hmem (sharedTmp_of_sharedFile hf)
    exact h.shared slot path hash content hold hserves₀ (hspares path huse ▸ hcontent)
  · rcases hs.tasks t task' ht with ⟨task, ht₀, hhash, hpc⟩ | hpc | hpc <;> rw [hpc] at hfile
    · rw [hspares path (.own ht₀ hnot (ownTmp_of_ownFile hfile)), hhash]
      exact h.own t task path ht₀ (fun hmem ↦ hnot (hsub hmem)) hfile
    · cases hfile
    · cases hfile

/-! ## What is asked for -/

/-- Every task is for a file, and for the content its entry names. -/
def Asks (s : SyncSystem) : Prop :=
  ∀ task ∈ s.tasks, task.entry.kind = .file ∧ task.entry.contentHash = some task.contentHash

omit [Blake3] in
/-- Moving a task does not change what it asks for. -/
theorem Asks.setPc (h : Asks s) {pc : Pc} (htasks : s'.tasks = (s.setPc t pc).tasks) :
    Asks s' := by
  intro task' hmem
  obtain ⟨u, hu⟩ := List.mem_iff_getElem?.mp hmem
  rw [htasks, getElem?_setPc] at hu
  obtain ⟨task₀, hu₀, rfl⟩ := Option.map_eq_some_iff.mp hu
  have hasks := h task₀ (List.mem_of_getElem? hu₀)
  split
  · exact hasks
  · exact hasks

theorem Asks.next (h : Asks s) {act : SyncAct} (hnext : s.next pid act = some s') : Asks s' := by
  cases act with
  | spawn call contentHash entry =>
    rw [SyncSystem.next] at hnext
    split at hnext
    · cases hnext
    · next hguard =>
      cases hnext
      rw [not_or, not_or, not_not, not_not] at hguard
      intro task' hmem
      rcases List.mem_append.mp hmem with hmem | hmem
      · exact h task' hmem
      · rw [List.mem_singleton.mp hmem]
        exact hguard.2
  | run t weather =>
    obtain ⟨task, ht, hrun⟩ := Option.bind_eq_some_iff.mp hnext
    rcases runTask_cases hrun with ⟨-, -, rfl⟩ | ⟨slot, r, -, rfl⟩ | ⟨slot, -, rfl⟩ | ⟨pc, hq, -⟩
    · exact h.setPc rfl
    · exact h.setPc rfl
    · intro task' hmem
      obtain ⟨u, hu⟩ := List.mem_iff_getElem?.mp hmem
      rw [getElem?_notify] at hu
      obtain ⟨task₀, hu₀, rfl⟩ := Option.map_eq_some_iff.mp hu
      exact h task₀ (List.mem_of_getElem? hu₀)
    · exact h.setPc hq.tasks_eq
  | fail call =>
    obtain rfl := Option.some.inj hnext
    exact h
  | abort t =>
    obtain ⟨task, ht, habort⟩ := Option.bind_eq_some_iff.mp hnext
    split at habort <;> cases habort
    exact h.setPc rfl
  | install ts =>
    obtain rfl := Option.some.inj hnext
    exact h

/-- What keeps the files of the tasks verified. -/
structure Verified (pid : Nat) (s : SyncSystem) (installed : List Nat) : Prop where
  named : Named pid s
  owned : ∃ owner, Owned pid s owner
  keyed : s.leases.Keyed
  asks : Asks s
  intact : Intact s installed

theorem Idle.verified (h : s.Idle) : Verified pid s [] := by
  have hslots : s.downloads.slots = [] := by
    rw [h.downloads_eq]
    rfl
  have hresult (slot : Nat) : s.result slot = none := by
    rw [result, hslots]
    rfl
  refine ⟨⟨?_, ?_, ?_⟩, ⟨fun _ ↦ 0, ?_, ?_⟩, h.leases_eq ▸ Leases.keyed_empty, ?_, ⟨?_, ?_⟩⟩
  all_goals simp [Asks, FileOf, hresult, h.sharedTmpPaths_eq, h.tasks_eq]

theorem Verified.run (h : Verified pid s installed) {weather : Weather}
    (hnext : s.next pid (.run t weather) = some s') : Verified pid s' installed := by
  obtain ⟨owner, ho⟩ := h.owned
  obtain ⟨task, ht, hrun⟩ := Option.bind_eq_some_iff.mp hnext
  obtain ⟨owner', ho', -⟩ := ho.fileStep h.named ht (fileStep_of_runTask ht hrun)
  exact ⟨h.named.next hnext, ⟨owner', ho'⟩, keyed_next h.keyed hnext, h.asks.next hnext,
    h.intact.runTask h.named ho h.keyed ht hrun⟩

/-- The steps other than those of tasks keep the files verified, if they leave them
alone. -/
theorem Verified.other (h : Verified pid s installed) {act : SyncAct}
    (hact : ∀ t weather, act ≠ .run t weather) (hnext : s.next pid act = some s')
    (hsub : installed ⊆ installed')
    (hspares : ∀ path, InUse s installed' path → s'.disk.contentAt path = s.disk.contentAt path) :
    Verified pid s' installed' := by
  obtain ⟨owner, ho⟩ := h.owned
  have hrests := h.named.rests_next hact hnext
  exact ⟨h.named.next hnext, ⟨owner, ho.rests hrests⟩, keyed_next h.keyed hnext, h.asks.next hnext,
    h.intact.rests h.keyed hrests (fun _ _ ↦ serves_next hnext) hsub hspares⟩

/-- Something else happens to the node. -/
theorem Verified.outside (h : Verified pid s installed) {node : Node Disk}
    (hroot : node.folder.root = s.root)
    (hspares : ∀ path, InUse s installed path → node.world.contentAt path = s.disk.contentAt path) :
    Verified pid { s with node } installed := by
  obtain ⟨owner, ho⟩ := h.owned
  have hrests : Rests s { s with node } :=
    ⟨⟨hroot, le_rfl, rfl⟩, fun _ _ hr ↦ hr, fun t task' ht ↦ .inl ⟨task', ht, rfl, rfl⟩⟩
  have hnamed : Named pid { s with node } :=
    ⟨fun path hp ↦ hrests.names.givenOut (h.named.givenOut path hp), h.named.results,
      fun t task ht ↦ hrests.names.pcNamed (h.named.tasks t task ht)⟩
  exact ⟨hnamed, ⟨owner, ho.rests hrests⟩, h.keyed, h.asks,
    h.intact.rests h.keyed hrests (fun _ _ ↦ .inl) (List.Subset.refl _) hspares⟩

end SyncSystem

end Lilsync
