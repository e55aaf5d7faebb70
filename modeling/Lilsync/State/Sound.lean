import Lilsync.Disk
import Lilsync.Lib.Machine
import Lilsync.Replica.Sound
import Lilsync.State.Collect
import Lilsync.State.Remote

/-!
# What every folder state satisfies

A `FolderState` comes out of `FolderState::new`, whatever the saved files say,
and is changed by five methods, which may fail at any point and whose writes of
the state files may fail too.  All they do to the index, the clock and the
watermark is to move a sound replica.
-/

namespace Lilsync

open Std (ExtTreeMap)
open Lilsync.Lib Lilsync.Lib.Proc

variable {W : Type} [FileSystem W] [Blake3]

open FileSystem Replica

/-! ## The methods and their runs -/

/-- A call of a method that changes a folder state. -/
inductive Call where
  | rescan
  | applyPaths (absPaths : List PathBuf)
  | applyRemoteEntries (batch : List (Entry × Option PathBuf))
  | mergeGcWatermark (incoming : GcWatermark)
  | gcTombstonesForConvergedRoot

/-- The node after a call, whether it succeeded or failed. -/
def Call.run (n : Node W) : Call → Node W
  | .rescan => (exec Lilsync.rescan n).2
  | .applyPaths absPaths => (exec (Lilsync.applyPaths absPaths) n).2
  | .applyRemoteEntries batch => (exec (Lilsync.applyRemoteEntries batch) n).2
  | .mergeGcWatermark incoming => (exec (Lilsync.mergeGcWatermark incoming) n).2
  | .gcTombstonesForConvergedRoot => (exec Lilsync.gcTombstonesForConvergedRoot n).2

/-- The runs of a folder state: it is made by `FolderState::new` over any files,
and changed by calls.  In between the folder and the state files may change. -/
def folderStates : Machine (Node W) where
  init n := ∃ root origin n₀, exec (FolderState.new root origin) n₀ = (.ok (), n)
  step n n' := (∃ call, n' = Call.run n call) ∨ ∃ w store, n' = { n with world := w, store }

/-! ## Local changes -/

/-- A rescan stamps what it records, whether it succeeds or fails. -/
theorem stamps_rescan (n : Node W) : ∃ cs, Stamps (n.folder.toReplica, [])
    ((exec rescan n).2.folder.toReplica, cs) := by
  have hspec := exec_rescan n
  match hsurvey : exec (survey n.folder.root) n.view with
  | (.error err, v) =>
    rw [hsurvey] at hspec
    rw [hspec]
    exact ⟨[], .refl⟩
  | (.ok s, v) =>
    rw [hsurvey] at hspec
    obtain ⟨w, files, cache, hexec⟩ := hspec
    have hplaced : s.Placed := Survey.yields_placed _ _ _ (congrArg Prod.fst hsurvey)
    rw [hexec]
    exact ⟨_, Survey.stamps_record hplaced _⟩

/-- So does `apply_paths`. -/
theorem stamps_applyPaths (absPaths : List PathBuf) (n : Node W) :
    ∃ cs, Stamps (n.folder.toReplica, [])
      ((exec (applyPaths absPaths) n).2.folder.toReplica, cs) := by
  rcases toReplica_applyPaths absPaths n with ⟨v, -, hrescan⟩ | hseen
  · rw [hrescan]
    exact stamps_rescan (n.withView v)
  · rw [hseen]
    have hplaced : ∀ rs ∈ eventSights n absPaths, rs.2.Placed rs.1 :=
      fun _ ↦ placed_of_mem_eventSights
    exact ⟨_, stamps_recordAll hplaced _⟩

theorem moves_rescan {n : Node W} (h : n.folder.Sound) :
    Moves n.folder.toReplica (exec rescan n).2.folder.toReplica := by
  obtain ⟨cs, hst⟩ := stamps_rescan n
  have hsound : (n.folder.toReplica, ([] : List Change)).1.Sound := h
  exact hsound.moves_of_stamps hst

theorem moves_applyPaths {n : Node W} (h : n.folder.Sound) (absPaths : List PathBuf) :
    Moves n.folder.toReplica (exec (applyPaths absPaths) n).2.folder.toReplica := by
  obtain ⟨cs, hst⟩ := stamps_applyPaths absPaths n
  have hsound : (n.folder.toReplica, ([] : List Change)).1.Sound := h
  exact hsound.moves_of_stamps hst

/-! ## Remote entries -/

omit [Blake3] in
theorem moves_foldlM_applyRemoteItem (batch : List (Entry × Option PathBuf)) (cs : List Change)
    {n : Node W} (h : n.folder.Sound) : Moves n.folder.toReplica
      (exec (batch.foldlM applyRemoteItem cs) n).2.folder.toReplica := by
  induction batch generalizing cs n with
  | nil => exact .refl
  | cons item batch ih =>
    rw [List.foldlM_cons, exec_bind, exec_applyRemoteItem]
    obtain ⟨w, ⟨err, hcore⟩ | ⟨-, hcore⟩ | ⟨hacc, hcore⟩⟩ :=
      exec_applyRemoteEntryCore_cases item.1 item.2 n
    · rw [hcore]
      exact .refl
    · rw [hcore]
      have hn : (n.withWorld w).folder.Sound := h
      exact ih _ hn
    · rw [hcore]
      have hmoves := h.moves_recordRemote hacc
      have hn : ((n.withWorld w).withReplica (n.folder.recordRemote item.1).1).folder.Sound :=
        h.moves hmoves
      exact hmoves.trans (ih _ hn)

theorem moves_applyRemoteEntries {n : Node W} (h : n.folder.Sound)
    (batch : List (Entry × Option PathBuf)) :
    Moves n.folder.toReplica (exec (applyRemoteEntries batch) n).2.folder.toReplica := by
  have hloop := moves_foldlM_applyRemoteItem batch [] h
  rw [applyRemoteEntries, exec_bind, applyRemoteBatch_eq]
  generalize exec (batch.foldlM applyRemoteItem []) n = r at hloop
  obtain ⟨err | cs, n₁⟩ := r
  · exact hloop
  · dsimp only
    rw [exec_bind]
    have hcommit := toReplica_commitChanges cs n₁
    generalize exec (commitChanges cs) n₁ = r at hcommit
    obtain ⟨_ | _, n₂⟩ := r
    · exact hcommit ▸ hloop
    · exact hcommit ▸ hloop

/-! ## Collecting -/

omit [Blake3] in
/-- Whether the write of a state file works or not, the memory stays as it is. -/
theorem exec_saveFile_folder (name : Str) (update : FolderState → Store → Store) (n : Node W) :
    ∃ n', exec (saveFile name update) n = (.ok (), n') ∧ n'.folder = n.folder := by
  obtain ⟨w, saved, h, -⟩ := exec_saveFile name update n
  exact ⟨_, h, rfl⟩

omit [Blake3] in
theorem exec_catchUp_toReplica (n : Node W) : ∃ n', exec catchUp n = (.ok (), n') ∧
    n'.folder.toReplica = n.folder.catchUp := by
  rw [catchUp, exec_get_bind, Replica.catchUp]
  by_cases hlt : n.folder.lamport < n.folder.ownWatermark
  · simp only [hlt, ↓reduceIte, NodeM.modifyFolder, exec_modify_bind]
    obtain ⟨n', h, hf⟩ := exec_saveFile_folder (lit "lamport")
      (fun folder store ↦ { store with lamport := .saved folder.lamport })
      { n with folder := { n.folder with lamport := n.folder.ownWatermark } }
    exact ⟨n', h, by rw [hf]⟩
  · simp only [hlt, ↓reduceIte, exec_pure]
    exact ⟨n, rfl, rfl⟩

omit [Blake3] in
theorem exec_raiseGcWatermark_toReplica (incoming : GcWatermark) (n : Node W) :
    ∃ n' changed, exec (raiseGcWatermark incoming) n = (.ok changed, n') ∧
      n'.folder.toReplica = (n.folder.toReplica.raiseGcWatermark incoming).1 := by
  rw [raiseGcWatermark, exec_get_bind, Replica.raiseGcWatermark]
  generalize n.folder.mergeWatermark incoming = m
  obtain ⟨r, changed⟩ := m
  dsimp only
  rw [NodeM.modifyFolder, exec_modify_bind]
  cases changed with
  | false => exact ⟨_, false, rfl, rfl⟩
  | true =>
    simp only [↓reduceIte]
    obtain ⟨n₁, hsave, hf⟩ := exec_saveFile_folder (lit "gc-watermark.bin")
      (fun folder store ↦ { store with gcWatermark := .saved folder.gcWatermark })
      { n with folder := { n.folder with toReplica := r } }
    obtain ⟨n₂, hcatch, hr⟩ := exec_catchUp_toReplica n₁
    rw [saveGcWatermark, exec_bind_ok hsave, exec_bind_ok hcatch]
    exact ⟨n₂, true, rfl, by rw [hr, hf]⟩

theorem exec_mergeGcWatermark_toReplica (incoming : GcWatermark) (n : Node W) :
    (exec (mergeGcWatermark incoming) n).2.folder.toReplica =
      (n.folder.toReplica.mergeGcWatermark incoming).1 := by
  obtain ⟨n₁, changed, hraise, hr₁⟩ := exec_raiseGcWatermark_toReplica incoming n
  obtain ⟨n₂, hprune, hr₂, -⟩ := exec_pruneTombstonesCoveredByWatermark n₁
  rw [mergeGcWatermark, exec_bind_ok hraise, exec_bind_ok hprune, Replica.mergeGcWatermark]
  dsimp only
  rw [← hr₁, ← hr₂]
  by_cases hp : 0 < n₁.folder.prune.2
  · simp only [hp, ↓reduceIte, NodeM.modifyFolder, exec_modify_bind]
    obtain ⟨n₃, hsave, hf⟩ := exec_saveFile_folder (lit "lamport")
      (fun folder store ↦ { store with lamport := .saved folder.lamport })
      { n₂ with folder := { n₂.folder with lamport := n₂.folder.lamport + 1 } }
    rw [saveLamport, exec_bind_ok hsave, exec_pure, hf]
  · simp only [hp, ↓reduceIte, exec_pure]

theorem exec_gcTombstonesForConvergedRoot_toReplica (n : Node W) :
    (exec gcTombstonesForConvergedRoot n).2.folder.toReplica =
      n.folder.toReplica.gcTombstonesForConvergedRoot.1 := by
  rw [gcTombstonesForConvergedRoot, exec_get_bind, Replica.gcTombstonesForConvergedRoot]
  by_cases he : n.folder.tombstoneWatermark.isEmpty
  · simp only [he, ↓reduceIte, exec_pure]
  · simp only [he, Bool.false_eq_true, ↓reduceIte]
    rw [exec_bind]
    have hmerge := exec_mergeGcWatermark_toReplica n.folder.tombstoneWatermark n
    generalize exec (mergeGcWatermark n.folder.tombstoneWatermark) n = r at hmerge
    obtain ⟨_ | _, n'⟩ := r
    · exact hmerge
    · exact hmerge

/-! ## Starting -/

omit [Blake3] in
/-- The clock `FolderState::new` starts from is at or above every saved version. -/
theorem lamport_le_maxEntryLamport {entries : Index} {k : Str} {e : Entry}
    (h : entries[k]? = some e) : e.version.lamport ≤ maxEntryLamport entries := by
  have hfold : ∀ (l : List Entry) (m : Nat),
      m ≤ l.foldl (fun m e ↦ max m e.version.lamport) m ∧
      ∀ e ∈ l, e.version.lamport ≤ l.foldl (fun m e ↦ max m e.version.lamport) m := by
    intro l
    induction l with
    | nil => simp
    | cons x l ih =>
      intro m
      obtain ⟨hm, hl⟩ := ih (max m x.version.lamport)
      refine ⟨(Nat.le_max_left _ _).trans hm, fun e he ↦ ?_⟩
      rcases List.mem_cons.mp he with rfl | he
      · exact (Nat.le_max_right _ _).trans hm
      · exact hl e he
  exact (hfold _ 0).2 e (OrdMap.mem_values_iff.mpr ⟨k, h⟩)

/-- The replica `FolderState::new` starts from, pruned. -/
def FolderState.loaded (root : PathBuf) (origin : Str) (store : Store) (entries : Index)
    (minted : List Version) : Replica :=
  (FolderState.load root origin store entries minted).toReplica.prune.1

omit [FileSystem W] [Blake3] in
theorem sound_loaded [Blake3] (root : PathBuf) (origin : Str) (store : Store) (entries : Index)
    (minted : List Version) : (FolderState.loaded root origin store entries minted).Sound := by
  refine sound_prune (fun k e he ↦ ?_) (Nat.le_max_right _ _)
  exact (lamport_le_maxEntryLamport he).trans
    ((Nat.le_max_right _ _).trans (Nat.le_max_left _ _))

omit [Blake3] in
theorem folder_of_exec_when_saveEntries {c : Prop} [Decidable c] {n n' : Node W} {a : Unit}
    (h : exec (when c saveEntries) n = (.ok a, n')) : n'.folder = n.folder := by
  rw [exec_when] at h
  split at h
  · obtain ⟨n₁, hsave, hf⟩ := exec_saveFile_folder (lit "entries.bin")
      (fun folder store ↦ { store with entries := .saved folder.entries }) n
    rw [saveEntries, hsave] at h
    cases h
    exact hf
  · cases h
    rfl

/-- `FolderState::new` moves on from what it loaded. -/
theorem moves_folderStateNew {root : PathBuf} {origin : Str} {n n' : Node W}
    (h : exec (FolderState.new root origin) n = (.ok (), n')) :
    ∃ root entries, loadSavedEntries n.store.entries = .ok entries ∧
      Moves (FolderState.loaded root origin n.store entries n.folder.minted)
        n'.folder.toReplica := by
  rw [FolderState.new] at h
  obtain ⟨root, n₁, hroot, h⟩ := of_exec_bind h
  obtain ⟨_, n₂, hdir, h⟩ := of_exec_bind h
  obtain ⟨_, n₃, hclean, h⟩ := of_exec_bind h
  rw [exec_fs_world] at hroot hdir hclean
  obtain ⟨-, rfl⟩ := Prod.mk.inj hroot
  obtain ⟨-, rfl⟩ := Prod.mk.inj hdir
  obtain ⟨-, rfl⟩ := Prod.mk.inj hclean
  rw [exec_get_bind] at h
  cases hload : loadSavedEntries n.store.entries with
  | error err =>
    rw [hload] at h
    cases h
  | ok entries =>
    rw [hload, NodeM.ofResult, exec_pure_bind, exec_modify_bind] at h
    generalize hn : (Node.mk _ _ _ : Node W) = n₄ at h
    obtain ⟨n₅, hprune, hr₅, -⟩ := exec_pruneTombstonesCoveredByWatermark n₄
    rw [exec_bind_ok hprune] at h
    obtain ⟨_, n₆, hsave, h⟩ := of_exec_bind h
    obtain ⟨changes, n₇, hrescan, h⟩ := of_exec_bind h
    obtain ⟨_, n₈, hsave', h⟩ := of_exec_bind h
    obtain ⟨n₉, hlamport, hf₉⟩ := exec_saveFile_folder (lit "lamport")
      (fun folder store ↦ { store with lamport := .saved folder.lamport }) n₈
    rw [saveLamport, hlamport] at h
    obtain ⟨-, rfl⟩ := Prod.mk.inj h
    have hloaded : n₆.folder.toReplica =
        FolderState.loaded root origin n.store entries n.folder.minted := by
      rw [folder_of_exec_when_saveEntries hsave, hr₅, ← hn]
      rfl
    have hsound : n₆.folder.Sound := hloaded ▸ sound_loaded root origin n.store entries _
    have hmoves := moves_rescan hsound
    rw [hrescan, hloaded] at hmoves
    rw [hf₉, folder_of_exec_when_saveEntries hsave']
    exact ⟨root, entries, rfl, hmoves⟩

/-! ## Every run -/

theorem moves_run {n : Node W} (h : n.folder.Sound) (call : Call) :
    Moves n.folder.toReplica (Call.run n call).folder.toReplica := by
  cases call with
  | rescan => exact moves_rescan h
  | applyPaths absPaths => exact moves_applyPaths h absPaths
  | applyRemoteEntries batch => exact moves_applyRemoteEntries h batch
  | mergeGcWatermark incoming =>
    rw [Call.run, exec_mergeGcWatermark_toReplica]
    exact .single (.collect _ incoming)
  | gcTombstonesForConvergedRoot =>
    rw [Call.run, exec_gcTombstonesForConvergedRoot_toReplica]
    exact moves_gcTombstonesForConvergedRoot _

/-- Every folder state is sound, and so is everything on the way from what was
loaded to it and through its next call: each version issued there is greater than
all in the index of that moment and not covered. -/
theorem sound_of_reachable :
    (∀ (root : PathBuf) (origin : Str) (n n' : Node W),
      exec (FolderState.new root origin) n = (.ok (), n') →
      ∃ root entries, loadSavedEntries n.store.entries = .ok entries ∧
        let loaded := FolderState.loaded root origin n.store entries n.folder.minted
        loaded.Sound ∧ Moves loaded n'.folder.toReplica ∧
          IssuesWinners loaded n'.folder.toReplica) ∧
    ∀ n : Node W, folderStates.Reachable n → n.folder.Sound ∧ ∀ call,
      Moves n.folder.toReplica (Call.run n call).folder.toReplica ∧
        IssuesWinners n.folder.toReplica (Call.run n call).folder.toReplica := by
  refine ⟨fun root origin n n' hnew ↦ ?_, fun n h ↦ ?_⟩
  · obtain ⟨root', entries, hload, hmoves⟩ := moves_folderStateNew hnew
    exact ⟨root', entries, hload, sound_loaded .., hmoves, hmoves.issuesWinners⟩
  · have hsound : n.folder.Sound := by
      refine h.invariant (I := fun n ↦ n.folder.Sound) ?_ ?_
      · rintro n ⟨root, origin, n₀, hnew⟩
        obtain ⟨root', entries, -, hmoves⟩ := moves_folderStateNew hnew
        exact (sound_loaded root' origin n₀.store entries _).moves hmoves
      · rintro n _ - hn (⟨call, rfl⟩ | ⟨w, store, rfl⟩)
        · exact hn.moves (moves_run hn call)
        · exact hn
    exact ⟨hsound, fun call ↦ ⟨moves_run hsound call, (moves_run hsound call).issuesWinners⟩⟩

/-! ## A run -/

theorem reachable_folderStateNew {root : PathBuf} {origin : Str} {n : Node W}
    (h : (exec (FolderState.new root origin) n).1 = .ok ()) :
    folderStates.Reachable (exec (FolderState.new root origin) n).2 :=
  .init ⟨root, origin, n, by rw [← h]⟩

/-- A node that was away: its clock file lags behind the watermark file, its index
still has a covered tombstone, and there is a new file in the folder. -/
def Node.lagging : Node Posix.Disk :=
  { Node.blank [lit "s"] (lit "A") (.of
      [([lit "s"], .dir 0o755), ([lit "s", lit "x"], .file 1)] [(1, ⟨[1], 0o644, 0⟩)]) with
    store := {
      lamport := .saved 3
      entries := .saved (indexOf [⟨lit "y", .tombstone, none, none, 0, none, ⟨5, lit "A"⟩⟩])
      gcWatermark := .saved (ExtTreeMap.ofList [(lit "A", 9)])
      scanCache := .missing } }

omit [FileSystem W] [Blake3] in
/-- The node starts from these files, then the watermark rises to its clock. -/
theorem sound_lagging :
    letI : Blake3 := Blake3.reference
    let n := (exec (FolderState.new [lit "s"] (lit "A")) Node.lagging).2
    let n' := Call.run n (.mergeGcWatermark (ExtTreeMap.ofList [(lit "A", 20)]))
    n'.folder.lamport = 20 ∧ n'.folder.Sound := by
  let _ : Blake3 := Blake3.reference
  intro n n'
  have hnew : (exec (FolderState.new [lit "s"] (lit "A")) Node.lagging).1 = .ok () := by
    decide +kernel
  have hstart : folderStates.Reachable n := reachable_folderStateNew hnew
  have hrun : folderStates.Reachable n' := .step hstart (.inl ⟨_, rfl⟩)
  have hlamport : n'.folder.lamport = 20 := by decide +kernel
  exact ⟨hlamport, (sound_of_reachable.2 n' hrun).1⟩

end Lilsync
