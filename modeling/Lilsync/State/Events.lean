import Lilsync.State.Later
import Lilsync.State.Rescan

/-!
# Event paths on a disk

`normalize_event_path` resolves the parent of an event path and leaves its last name
alone.  On a disk this changes nothing, and what comes out on a tree has file names.
-/

namespace Lilsync

open Lilsync.Lib Lilsync.Lib.Proc Lilsync.Lib.Posix

/-- A path as the standard library has them: its names are not empty, not `.`, and
have no slash. -/
def IsPath (p : PathBuf) : Prop := ∀ n ∈ p, n ≠ [] ∧ slash ∉ n ∧ n ≠ lit "."

instance (p : PathBuf) : Decidable (IsPath p) := inferInstanceAs (Decidable (∀ n ∈ p, _))

/-- What `normalize_event_path` makes of a path. -/
def normalPath (d : Disk) (p : PathBuf) : Option PathBuf :=
  match p.parent with
  | none => (d.find true p).toOption.map Prod.fst
  | some parent => (d.find true parent).toOption.map fun r ↦ r.1 ++ p.fileName.toList

variable {d : Disk} {p q : PathBuf}

theorem exec_canonicalize (d : Disk) (p : PathBuf) :
    exec (FileSystem.canonicalize p) d = (((d.find true p).map Prod.fst).mapError ofErrno, d) := rfl

theorem exec_normalizeEventPath (d : Disk) (p : PathBuf) :
    exec (normalizeEventPath p) d = (.ok (normalPath d p), d) := by
  rw [normalizeEventPath, normalPath]
  cases p.parent with
  | none =>
    dsimp only
    rw [exec_attempt_bind, exec_canonicalize]
    cases d.find true p with
    | error e => rfl
    | ok r => rfl
  | some parent =>
    dsimp only
    rw [exec_attempt_bind, exec_canonicalize]
    cases d.find true parent with
    | error e => rfl
    | ok r => rfl

theorem exec_normalizeEventPaths (d : Disk) (paths : List PathBuf) :
    exec (normalizeEventPaths paths) d = (.ok (paths.filterMap (normalPath d)), d) := by
  have hfold (f : List PathBuf → PathBuf → Fs Disk (List PathBuf))
      (hf : ∀ acc p, exec (f acc p) d = (.ok (acc ++ (normalPath d p).toList), d))
      (acc : List PathBuf) :
      exec (paths.foldlM f acc) d = (.ok (acc ++ paths.filterMap (normalPath d)), d) := by
    induction paths generalizing acc with
    | nil => simp
    | cons p paths ih =>
      rw [List.foldlM_cons, exec_bind_ok (hf acc p), ih, List.append_assoc]
      cases h : normalPath d p with
      | none => rw [List.filterMap_cons_none h, Option.toList_none, List.nil_append]
      | some q => rw [List.filterMap_cons_some h, Option.toList_some, List.singleton_append]
  refine hfold _ (fun acc p ↦ ?_) []
  rw [exec_bind_ok (exec_normalizeEventPath d p)]
  cases normalPath d p with
  | none => exact congrArg (fun l ↦ (Except.ok l, d)) (List.append_nil acc).symm
  | some q => rfl

/-- The names an event path stands for are file names. -/
theorem fileNames_of_normalPath (hT : d.Tree) (hp : IsPath p) (h : normalPath d p = some q) :
    FileNames q := by
  have hreal {p real : PathBuf} {o : Obj} (h : d.find true p = .ok (real, o)) : FileNames real :=
    hT.fileName real o (Disk.obj_of_find h)
  rw [normalPath] at h
  split at h
  · cases hf : d.find true p with
    | error e =>
      rw [hf] at h
      cases h
    | ok r =>
      rw [hf] at h
      obtain rfl := Option.some.inj h
      exact hreal hf
  · next parent _ =>
    cases hf : d.find true parent with
    | error e =>
      rw [hf] at h
      cases h
    | ok r =>
      rw [hf] at h
      obtain rfl := Option.some.inj h
      refine List.forall_mem_append.mpr ⟨hreal hf, fun n hn ↦ ?_⟩
      rw [Option.mem_toList, PathBuf.fileName, Option.bind_eq_some_iff] at hn
      obtain ⟨m, hm, hn⟩ := hn
      split at hn
      · cases hn
      · next hdd =>
        obtain rfl := Option.some.inj hn
        obtain ⟨hnil, hslash, hdot⟩ := hp m (List.mem_of_getLast? hm)
        exact ⟨hnil, hslash, hdot, hdd⟩

/-- The patterns do not change with time. -/
theorem HasPatterns.later {root : PathBuf} {ps : List IgnorePattern} {d' : Disk}
    (h : HasPatterns d root ps) (hlater : Disk.Later d d') : HasPatterns d' root ps := by
  obtain ⟨t, rfl⟩ := hlater
  have hread (d : Disk) : exec (FileSystem.read (root.join ignoreFileName)) d =
      ((Posix.readFile d (root.join ignoreFileName)).mapError ofErrno, d) := rfl
  have hsame : Posix.readFile (d.atTime t) (root.join ignoreFileName) =
      Posix.readFile d (root.join ignoreFileName) := by
    rw [Posix.readFile, Posix.readFile, Disk.stat, Disk.stat, Disk.find_atTime]
    rfl
  rw [HasPatterns, loadIgnorePatterns, exec_attempt_bind, hread] at h ⊢
  rw [hsame]
  cases hr : (Posix.readFile d (root.join ignoreFileName)).mapError ofErrno with
  | ok contents =>
    rw [hr] at h
    dsimp only at h ⊢
    split
    · next hv =>
      rw [if_pos hv] at h
      exact h
    · next hv =>
      rw [if_neg hv] at h
      cases h
  | error err =>
    rw [hr] at h
    dsimp only at h ⊢
    split
    · next hv =>
      rw [if_pos hv] at h
      exact h
    · next hv =>
      rw [if_neg hv] at h
      cases h

end Lilsync
