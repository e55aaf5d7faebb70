import Lilsync.Sync.TmpFiles

/-!
# Downloaded files and their inodes

Files that are installed should be independent of each other.  They are, as long
as no hard link is made to a shared file that some task has linked before.
-/

namespace Lilsync

open Lilsync.Lib Lilsync.Lib.Posix Lilsync.Lib.Posix.Disk

namespace SyncSystem

variable {s s' : SyncSystem} {t : Nat} {task : Task}

/-- A path outside `.lil`, where files are installed. -/
def Installable (s : SyncSystem) (p : PathBuf) : Prop := ¬ s.root.join stateDir <+: p

/-- Received files that are installed at different paths are different files:
writing to one of them, or changing its mode, leaves the other alone. -/
def Independent (s : SyncSystem) : Prop :=
  ∀ p q i j, p ≠ q → s.Installable p → s.Installable q → i ∈ s.received →
    s.disk.Names i p → s.disk.Names j q →
      i ≠ j ∧ ∀ inode, ({ s.disk with inodes := s.disk.inodes.insert i inode } : Disk).inode j =
        s.disk.inode j

/-- The file a task is about to link. -/
def linkedInode (s : SyncSystem) : Pc → Option Nat
  | .materializing _ shared _ =>
    match s.disk.obj shared with
    | some (.file i) => some i
    | _ => none
  | _ => none

/-- A hard link is made only to a file that has no name but shared ones. -/
def LinksOnce (s : SyncSystem) : SyncAct → Prop
  | .run t weather => weather.canLink → ∀ task ∈ s.tasks[t]?, ∀ i ∈ s.linkedInode task.pc,
      ∀ p ∈ s.disk.namesOf i, p ∈ s.sharedTmpPaths
  | _ => True

instance (s : SyncSystem) (act : SyncAct) : Decidable (LinksOnce s act) :=
  match act with
  | .run t weather => inferInstanceAs (Decidable (weather.canLink → ∀ task ∈ s.tasks[t]?,
      ∀ i ∈ s.linkedInode task.pc, ∀ p ∈ s.disk.namesOf i, p ∈ s.sharedTmpPaths))
  | .spawn .. | .fail _ | .abort _ | .install _ => isTrue trivial

/-! ## New files -/

theorem le_foldr_max {l : List Nat} {i : Nat} (h : i ∈ l) : i ≤ l.foldr max 0 := by
  induction l with
  | nil => cases h
  | cons j l ih =>
    rw [List.foldr_cons]
    rcases List.mem_cons.mp h with rfl | h
    · exact Nat.le_max_left ..
    · exact (ih h).trans (Nat.le_max_right ..)

/-- A fresh number names no file. -/
theorem not_names_freshInode (d : Disk) (p : Path) : ¬ d.Names (freshInode d) p := by
  intro h
  rw [Names, obj_of_ne_nil (Names.ne_nil h)] at h
  have hmem : freshInode d ∈ d.inodes.keys ++ (OrdMap.values d.objects).filterMap
      freshInode.inodeOf :=
    List.mem_append_right _ (List.mem_filterMap.mpr ⟨_, OrdMap.mem_values_iff.mpr ⟨p, h⟩, rfl⟩)
  exact absurd (le_foldr_max hmem) (Nat.not_le.mpr (Nat.lt_succ_self _))

/-! ## The invariant -/

/-- Outside the shared paths, a received file has at most one name. -/
def SoleNames (s : SyncSystem) : Prop := Sole s.received s.sharedTmpPaths s.disk

theorem SoleNames.create (h : SoleNames s) {path : PathBuf} (hp : path ≠ []) (inode : Inode) :
    SoleNames (s.create path inode) :=
  Sole.create h hp (not_names_freshInode s.disk)

theorem SoleNames.remove (h : SoleNames s) (path : PathBuf) : SoleNames (s.remove path) :=
  Sole.of_noNewNames h noNewNames_clear

variable [Blake3] {pid : Nat}

theorem Own.ne_nil {path : PathBuf} (h : Own pid s path) : path ≠ [] := by
  obtain ⟨id, entry, -, rfl⟩ := h.givenOut
  rw [tmpRecvPath_eq]
  exact List.append_ne_nil_of_right_ne_nil _ (List.cons_ne_nil _ _)

theorem GivenOut.ne_nil {path : PathBuf} (h : GivenOut pid s path) : path ≠ [] := by
  obtain ⟨id, entry, -, rfl⟩ := h
  rw [tmpRecvPath_eq]
  exact List.append_ne_nil_of_right_ne_nil _ (List.cons_ne_nil _ _)

omit [Blake3] in
/-- Linking or copying gives a file one name at most. -/
theorem SoleNames.materialize (h : SoleNames s) {shared own : PathBuf} (hown : own ≠ [])
    {weather : Weather} (hlink : weather.canLink → ∀ i, s.disk.Names i shared →
      ∀ p ∈ s.disk.namesOf i, p ∈ s.sharedTmpPaths) :
    SoleNames (s.materialize shared own weather).1 := by
  rw [SyncSystem.materialize]
  split
  · next i hi =>
    split
    · next hcan =>
      exact Sole.link h hown fun q hq hiq ↦ hq (hlink hcan i hi q (mem_namesOf hiq))
    · split
      · exact h.create hown _
      · exact h
  · exact h

/-- A step of a task keeps the names of the received files apart. -/
theorem SoleNames.runTask (h : SoleNames s) (hn : Named pid s) (ht : s.tasks[t]? = some task)
    {weather : Weather} (hlink : LinksOnce s (.run t weather))
    (hrun : s.runTask pid t task weather = some s') : SoleNames s' := by
  have hpcn := hn.tasks t task ht
  rw [SyncSystem.runTask] at hrun
  cases hpc : task.pc with rw [hpc] at hrun
  | spawned =>
    dsimp only at hrun
    split at hrun <;> cases hrun
    exact h
  | naming slot =>
    obtain rfl := Option.some.inj hrun
    exact fun i hi p q hp hq ↦ h i hi p q (fun hmem ↦ hp (List.mem_cons_of_mem _ hmem))
      fun hmem ↦ hq (List.mem_cons_of_mem _ hmem)
  | fetching slot tmp =>
    obtain rfl := Option.some.inj hrun
    rw [SyncSystem.fetch.eq_def]
    have htmp : tmp ≠ [] := (hn.givenOut tmp (hpcn.shared tmp (by rw [hpc]; rfl))).ne_nil
    split
    · split
      · exact h.create htmp _
      · exact h
    · exact h
  | fetched slot result =>
    obtain rfl := Option.some.inj hrun
    exact h
  | stored slot =>
    obtain rfl := Option.some.inj hrun
    exact h
  | reading slot =>
    obtain rfl := Option.some.inj hrun
    exact h
  | sawNone slot =>
    obtain rfl := Option.some.inj hrun
    exact h
  | parked slot => cases hrun
  | failing slot err =>
    obtain rfl := Option.some.inj hrun
    exact h
  | claiming slot shared =>
    obtain rfl := Option.some.inj hrun
    exact h
  | declined slot =>
    obtain rfl := Option.some.inj hrun
    exact h
  | ownNaming slot shared =>
    obtain rfl := Option.some.inj hrun
    exact h
  | materializing slot shared own =>
    obtain rfl := Option.some.inj hrun
    refine SoleNames.materialize h (hpcn.own own (by rw [hpc]; rfl)).ne_nil fun hcan i hi ↦ ?_
    refine hlink hcan task ht i ?_
    rw [hpc, linkedInode, show s.disk.obj shared = some (.file i) from hi]
    rfl
  | materialized slot own result =>
    cases result <;> obtain rfl := Option.some.inj hrun <;> exact h
  | removing paths result =>
    cases paths <;> obtain rfl := Option.some.inj hrun
    · exact h
    · exact h.remove _
  | done result => cases hrun
  | aborted => cases hrun

/-! ## Runs -/

theorem SoleNames.next (h : SoleNames s) (hn : Named pid s) {act : SyncAct}
    (hlink : LinksOnce s act) (hnext : s.next pid act = some s') : SoleNames s' := by
  cases act with
  | spawn call contentHash entry =>
    rw [SyncSystem.next] at hnext
    split at hnext <;> cases hnext
    exact h
  | run t weather =>
    obtain ⟨task, ht, hrun⟩ := Option.bind_eq_some_iff.mp hnext
    exact h.runTask hn ht hlink hrun
  | fail call =>
    obtain rfl := Option.some.inj hnext
    exact h
  | abort t =>
    obtain ⟨task, ht, habort⟩ := Option.bind_eq_some_iff.mp hnext
    split at habort <;> cases habort
    exact h
  | install ts =>
    obtain rfl := Option.some.inj hnext
    exact (hn.tidy_install ts).sole h

/-- Shared files are in `.lil`. -/
theorem Named.notMem_of_installable (h : Named pid s) {p : PathBuf} (hp : s.Installable p) :
    p ∉ s.sharedTmpPaths := by
  intro hmem
  obtain ⟨id, entry, -, rfl⟩ := h.givenOut p hmem
  rw [tmpRecvPath_eq] at hp
  exact hp (List.prefix_append ..)

/-- Files with single names do not share what is written to them. -/
theorem SoleNames.independent (h : SoleNames s) (hn : Named pid s) : Independent s := by
  intro p q i j hpq hp hq hi hip hjq
  have hne : i ≠ j := by
    rintro rfl
    exact hpq (h i hi p q (hn.notMem_of_installable hp) (hn.notMem_of_installable hq) hip hjq)
  refine ⟨hne, fun inode ↦ ?_⟩
  rw [Disk.inode, Disk.inode, OrdMap.getElem?_insert_eq, if_neg hne]

/-- The empty file arrives; the file system can link or not. -/
def emptyArrives (canLink : Bool) : Weather := ⟨.ok [], canLink, .ok ()⟩

/-- Two empty files are fetched through one slot and installed.  The first task
links the shared file, the second one links or copies it. -/
def twoEmptyFiles (secondLinks : Bool) : List SyncAct :=
  let emptyHash := Blake3.digest []
  [.spawn 0 emptyHash (remoteFile "a" emptyHash), .spawn 0 emptyHash (remoteFile "b" emptyHash)]
    ++ List.replicate 9 (.run 0 (emptyArrives true))
    ++ List.replicate 5 (.run 1 (emptyArrives secondLinks))
    ++ List.replicate 2 (.run 0 (emptyArrives true))
    ++ List.replicate 3 (.run 1 (emptyArrives true))
    ++ [.install [0, 1]]

end SyncSystem

end Lilsync
