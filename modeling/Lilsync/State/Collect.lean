import Lilsync.State.Sight

/-!
# Collecting tombstones, with the saving

`merge_gc_watermark` and `gc_tombstones_for_converged_root` do to the index what
their plain versions on `Replica` do, and save the clock whenever they move it.
-/

namespace Lilsync

open Std (ExtTreeMap)
open Lilsync.Lib Lilsync.Lib.Proc

variable {W : Type} [FileSystem W]

open FileSystem

variable (W) in
/-- No write of a state file fails. -/
def WritesSucceed : Prop := ∀ (p : PathBuf) (w : W), (exec (writeAtomic p) w).1 = .ok ()

/-- A write that cannot fail. -/
theorem exec_saveFile_of_writesSucceed (hw : WritesSucceed W) (name : Str)
    (update : FolderState → Store → Store) (n : Node W) :
    ∃ w, exec (saveFile name update) n =
      (.ok (), { n with world := w, store := update n.folder n.store }) := by
  obtain ⟨w, saved, h, hfail⟩ := exec_saveFile name update n
  cases saved with
  | true => exact ⟨w, h⟩
  | false =>
    obtain ⟨p, w', err, herr⟩ := hfail rfl
    rw [hw p w'] at herr
    cases herr

/-- The replica of the node is the given one now; if the clock moved, it was
saved. -/
structure Ticked (n n' : Node W) (r : Replica) : Prop where
  toReplica_eq : n'.folder.toReplica = r
  root_eq : n'.folder.root = n.folder.root
  entries_eq : n'.store.entries = n.store.entries
  saved : (r.lamport = n.folder.lamport ∧ n'.store.lamport = n.store.lamport) ∨
    n'.store.lamport = .saved r.lamport

variable [Blake3]

omit [FileSystem W] in
theorem exec_pruneTombstonesCoveredByWatermark (n : Node W) :
    ∃ n', exec pruneTombstonesCoveredByWatermark n = (.ok n.folder.prune.2, n') ∧
      n'.folder.toReplica = n.folder.prune.1 ∧ n'.folder.root = n.folder.root ∧
      n'.store = n.store ∧ n'.world = n.world := by
  rw [pruneTombstonesCoveredByWatermark, exec_get_bind]
  by_cases h : 0 < n.folder.prune.2
  · simp only [h, ↓reduceIte, NodeM.modifyFolder, exec_modify_bind, exec_pure]
    exact ⟨_, rfl, rfl, rfl, rfl, rfl⟩
  · simp only [h, ↓reduceIte, exec_pure]
    refine ⟨n, rfl, ?_, rfl, rfl, rfl⟩
    have hnil : n.folder.coveredTombstones = [] :=
      List.eq_nil_of_length_eq_zero (Nat.eq_zero_of_not_pos h)
    simp [Replica.prune, hnil]

omit [Blake3] in
theorem exec_catchUp (hw : WritesSucceed W) (n : Node W) :
    ∃ n', exec catchUp n = (.ok (), n') ∧ Ticked n n' n.folder.catchUp := by
  rw [catchUp, exec_get_bind, Replica.catchUp]
  by_cases hlt : n.folder.lamport < n.folder.ownWatermark
  · simp only [hlt, ↓reduceIte, NodeM.modifyFolder, exec_modify_bind]
    rw [saveLamport]
    obtain ⟨w, h⟩ := exec_saveFile_of_writesSucceed hw (lit "lamport")
      (fun folder store ↦ { store with lamport := .saved folder.lamport })
      { n with folder := { n.folder with lamport := n.folder.ownWatermark } }
    exact ⟨_, h, rfl, rfl, rfl, .inr rfl⟩
  · simp only [hlt, ↓reduceIte, exec_pure]
    exact ⟨n, rfl, rfl, rfl, rfl, .inl ⟨rfl, rfl⟩⟩

omit [Blake3] in
theorem exec_raiseGcWatermark (hw : WritesSucceed W) (incoming : GcWatermark) (n : Node W) :
    ∃ n', exec (raiseGcWatermark incoming) n =
        (.ok (n.folder.toReplica.raiseGcWatermark incoming).2, n') ∧
      Ticked n n' (n.folder.toReplica.raiseGcWatermark incoming).1 := by
  rw [raiseGcWatermark, exec_get_bind, Replica.raiseGcWatermark]
  have hlamport : (n.folder.mergeWatermark incoming).1.lamport = n.folder.lamport := rfl
  generalize n.folder.mergeWatermark incoming = m at hlamport
  obtain ⟨r, changed⟩ := m
  dsimp only at hlamport ⊢
  rw [NodeM.modifyFolder, exec_modify_bind]
  cases changed with
  | false => exact ⟨_, rfl, rfl, rfl, rfl, .inl ⟨hlamport, rfl⟩⟩
  | true =>
    simp only [↓reduceIte]
    obtain ⟨w, hsave⟩ := exec_saveFile_of_writesSucceed hw (lit "gc-watermark.bin")
      (fun folder store ↦ { store with gcWatermark := .saved folder.gcWatermark })
      { n with folder := { n.folder with toReplica := r } }
    rw [saveGcWatermark, exec_bind_ok hsave]
    obtain ⟨n', hcatch, ht⟩ := exec_catchUp hw { n with
      folder := { n.folder with toReplica := r }
      store := { n.store with gcWatermark := .saved r.gcWatermark }
      world := w }
    rw [exec_bind_ok hcatch]
    refine ⟨n', rfl, ht.toReplica_eq, ht.root_eq, ht.entries_eq, ht.saved.imp ?_ id⟩
    rintro ⟨hl, hs⟩
    exact ⟨hl.trans hlamport, hs⟩

/-- `merge_gc_watermark` does to the index what its plain version does. -/
theorem exec_mergeGcWatermark (hw : WritesSucceed W) (incoming : GcWatermark) (n : Node W) :
    ∃ n', exec (mergeGcWatermark incoming) n =
        (.ok (n.folder.toReplica.mergeGcWatermark incoming).2, n') ∧
      Ticked n n' (n.folder.toReplica.mergeGcWatermark incoming).1 := by
  obtain ⟨n₁, hraise, ht⟩ := exec_raiseGcWatermark hw incoming n
  obtain ⟨n₂, hprune, hr, hroot, hstore, -⟩ := exec_pruneTombstonesCoveredByWatermark n₁
  rw [mergeGcWatermark, exec_bind_ok hraise, exec_bind_ok hprune, Replica.mergeGcWatermark]
  dsimp only
  rw [← ht.toReplica_eq, ← hr]
  have hlamport : n₂.folder.lamport = n₁.folder.lamport := by rw [hr]; rfl
  by_cases hp : 0 < n₁.folder.prune.2
  · simp only [hp, ↓reduceIte, NodeM.modifyFolder, exec_modify_bind]
    obtain ⟨w, hsave⟩ := exec_saveFile_of_writesSucceed hw (lit "lamport")
      (fun folder store ↦ { store with lamport := .saved folder.lamport })
      { n₂ with folder := { n₂.folder with lamport := n₂.folder.lamport + 1 } }
    rw [saveLamport, exec_bind_ok hsave]
    exact ⟨_, rfl, rfl, hroot.trans ht.root_eq, (congrArg Store.entries hstore).trans ht.entries_eq,
      .inr rfl⟩
  · simp only [hp, ↓reduceIte, exec_pure]
    refine ⟨n₂, rfl, rfl, hroot.trans ht.root_eq,
      (congrArg Store.entries hstore).trans ht.entries_eq, ?_⟩
    rw [hstore, hlamport, ht.toReplica_eq]
    exact ht.saved

/-- `gc_tombstones_for_converged_root` does to the index what its plain version
does. -/
theorem exec_gcTombstonesForConvergedRoot (hw : WritesSucceed W) (n : Node W) :
    ∃ n', exec gcTombstonesForConvergedRoot n =
        (.ok n.folder.toReplica.gcTombstonesForConvergedRoot.2, n') ∧
      Ticked n n' n.folder.toReplica.gcTombstonesForConvergedRoot.1 := by
  rw [gcTombstonesForConvergedRoot, exec_get_bind, Replica.gcTombstonesForConvergedRoot]
  by_cases he : n.folder.tombstoneWatermark.isEmpty
  · simp only [he, ↓reduceIte]
    exact ⟨n, rfl, rfl, rfl, rfl, .inl ⟨rfl, rfl⟩⟩
  · simp only [he, Bool.false_eq_true, ↓reduceIte]
    obtain ⟨n', h, ht⟩ := exec_mergeGcWatermark hw n.folder.tombstoneWatermark n
    exact ⟨n', by rw [exec_bind_ok h]; rfl, ht⟩

end Lilsync
