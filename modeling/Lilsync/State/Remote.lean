import Lilsync.State.Sight

/-!
# Applying remote entries

What a call of `apply_remote_entry_core` does, and what the loop over a batch
does to the index.  Everything but the world stays as it is until the entry is
on the disk; from there on nothing can fail.
-/

namespace Lilsync

open Std (ExtTreeMap)
open Lilsync.Lib Lilsync.Lib.Proc

variable {W : Type}

/-- The node in another world. -/
def Node.withWorld (n : Node W) (w : W) : Node W := { n with world := w }

section WithWorld

variable (n : Node W) (w w' : W) (r : Replica)

@[simp] theorem Node.world_withWorld : (n.withWorld w).world = w := rfl

@[simp] theorem Node.folder_withWorld : (n.withWorld w).folder = n.folder := rfl

@[simp] theorem Node.store_withWorld : (n.withWorld w).store = n.store := rfl

@[simp] theorem Node.store_withReplica : (n.withReplica r).store = n.store := rfl

@[simp] theorem Node.withWorld_withWorld : (n.withWorld w).withWorld w' = n.withWorld w' := rfl

end WithWorld

/-- Only paths that pass the check are accepted. -/
theorem Replica.validRemotePath_of_shouldAcceptRemote {r : Replica} {remote : Entry}
    (h : r.shouldAcceptRemote remote) : ValidRemotePath remote.path := by
  by_contra hn
  simp [shouldAcceptRemote, hn] at h

/-- An accepted entry is newer than the one in the index. -/
theorem Replica.lt_of_shouldAcceptRemote {r : Replica} {remote e : Entry}
    (h : r.shouldAcceptRemote remote) (he : r.entries[remote.path]? = some e) :
    e.version < remote.version := by
  rw [shouldAcceptRemote] at h
  split at h
  · cases h
  · split at h
    · cases h
    · simpa [he] using h

section Core

variable [FileSystem W]

open FileSystem

/-- An accepted entry goes on the disk; if that works, it goes into the index. -/
theorem exec_applyRemoteEntryCore_accept {n : Node W} {remote : Entry}
    (h : n.folder.shouldAcceptRemote remote) (tmp : Option PathBuf) :
    exec (applyRemoteEntryCore remote tmp) n =
      match exec (installRemote n.folder.root remote tmp) n.world with
      | (.error err, w) => (.error err, n.withWorld w)
      | (.ok _, w) =>
        (.ok (n.folder.recordRemote remote).2,
          (n.withWorld w).withReplica (n.folder.recordRemote remote).1) := by
  have hv : validateRemotePath remote.path = .ok () :=
    Replica.validRemotePath_of_shouldAcceptRemote h
  rw [applyRemoteEntryCore.eq_def, hv, NodeM.ofResult, exec_pure_bind, exec_get_bind]
  simp only [h, Bool.not_true, Bool.false_eq_true, ↓reduceIte, exec_bind, exec_fs_world]
  generalize exec (installRemote n.folder.root remote tmp) n.world = r
  obtain ⟨_ | _, w⟩ := r <;> rfl

/-- An entry that is not accepted changes nothing but the world: its downloaded
object is removed. -/
theorem exec_applyRemoteEntryCore_reject {n : Node W} {remote : Entry}
    (h : n.folder.shouldAcceptRemote remote = false) (tmp : Option PathBuf) :
    ∃ w, exec (applyRemoteEntryCore remote tmp) n = (.ok [], n.withWorld w) ∨
      ∃ err, exec (applyRemoteEntryCore remote tmp) n = (.error err, n.withWorld w) := by
  rw [applyRemoteEntryCore.eq_def]
  cases validateRemotePath remote.path with
  | error err => exact ⟨n.world, .inr ⟨err, rfl⟩⟩
  | ok _ =>
    rw [NodeM.ofResult, exec_pure_bind, exec_get_bind]
    simp only [h, Bool.not_false, ↓reduceIte]
    cases tmp with
    | none => exact ⟨n.world, .inl rfl⟩
    | some tmp => exact ⟨_, .inl rfl⟩

/-- What a call can do: fail, skip the entry, or record it. -/
theorem exec_applyRemoteEntryCore_cases (remote : Entry) (tmp : Option PathBuf) (n : Node W) :
    ∃ w,
      (∃ err, exec (applyRemoteEntryCore remote tmp) n = (.error err, n.withWorld w)) ∨
      (n.folder.shouldAcceptRemote remote = false ∧
        exec (applyRemoteEntryCore remote tmp) n = (.ok [], n.withWorld w)) ∨
      (n.folder.shouldAcceptRemote remote ∧
        exec (applyRemoteEntryCore remote tmp) n =
          (.ok (n.folder.recordRemote remote).2,
            (n.withWorld w).withReplica (n.folder.recordRemote remote).1)) := by
  cases h : n.folder.shouldAcceptRemote remote with
  | false =>
    obtain ⟨w, hok | herr⟩ := exec_applyRemoteEntryCore_reject h tmp
    · exact ⟨w, .inr (.inl ⟨rfl, hok⟩)⟩
    · exact ⟨w, .inl herr⟩
  | true =>
    rw [exec_applyRemoteEntryCore_accept h]
    generalize exec (installRemote n.folder.root remote tmp) n.world = r
    obtain ⟨err | _, w⟩ := r
    · exact ⟨w, .inl ⟨err, rfl⟩⟩
    · exact ⟨w, .inr (.inr ⟨rfl, rfl⟩)⟩

/-! ## The loop -/

/-- The body of the loop of `apply_remote_entries`. -/
def applyRemoteItem (allChanges : List Change) (item : Entry × Option PathBuf) :
    NodeM W (List Change) := do
  let changes ← applyRemoteEntryCore item.1 item.2
  pure (allChanges ++ changes)

theorem applyRemoteBatch_eq (batch : List (Entry × Option PathBuf)) :
    (applyRemoteBatch batch : NodeM W (List Change)) = batch.foldlM applyRemoteItem [] := rfl

theorem exec_applyRemoteItem (allChanges : List Change) (item : Entry × Option PathBuf)
    (n : Node W) : exec (applyRemoteItem allChanges item) n =
      match exec (applyRemoteEntryCore item.1 item.2) n with
      | (.ok changes, n') => (.ok (allChanges ++ changes), n')
      | (.error err, n') => (.error err, n') := by
  rw [applyRemoteItem, exec_bind]
  generalize exec (applyRemoteEntryCore item.1 item.2) n = r
  obtain ⟨_ | _, n'⟩ := r <;> rfl

/-- A loop that fails succeeded on the elements up to the one that fails. -/
theorem exec_foldlM_applyRemoteItem_error {batch : List (Entry × Option PathBuf)}
    {cs : List Change} {n n' : Node W} {err : IoError}
    (h : exec (batch.foldlM applyRemoteItem cs) n = (.error err, n')) :
    ∃ pre item post cs' n₁, batch = pre ++ item :: post ∧
      exec (pre.foldlM applyRemoteItem cs) n = (.ok cs', n₁) ∧
      exec (applyRemoteEntryCore item.1 item.2) n₁ = (.error err, n') := by
  induction batch generalizing cs n with
  | nil => cases h
  | cons item batch ih =>
    rw [List.foldlM_cons, exec_bind, exec_applyRemoteItem] at h
    match hcore : exec (applyRemoteEntryCore item.1 item.2) n with
    | (.error err', n₁) =>
      rw [hcore] at h
      cases h
      exact ⟨[], item, batch, cs, n, rfl, rfl, hcore⟩
    | (.ok changes, n₁) =>
      rw [hcore] at h
      obtain ⟨pre, item', post, cs', n₂, rfl, hpre, herr⟩ := ih h
      refine ⟨item :: pre, item', post, cs', n₂, rfl, ?_, herr⟩
      rw [List.foldlM_cons, exec_bind, exec_applyRemoteItem, hcore]
      exact hpre

end Core

end Lilsync
