import Lilsync.Disk
import Lilsync.Lib.Posix.Names
import Lilsync.State

/-!
# Installing a file moves its name

On a disk, applying remote entries gives no file a second name: what it installs
is renamed, and everything else it does makes directories and links or removes.
-/

namespace Lilsync

open Lilsync.Lib Lilsync.Lib.Proc Lilsync.Lib.Posix Lilsync.Lib.Posix.Disk

/-! ## Calls that give no file a new name -/

section Calls

open FileSystem

variable (path : PathBuf)

theorem noNewNames_symlinkMetadata : Keeps NoNewNames (symlinkMetadata path : Fs Disk Metadata) :=
  keeps_query _

theorem noNewNames_readDir : Keeps NoNewNames (readDir path : Fs Disk (List Str)) := keeps_query _

theorem noNewNames_createDirAll : Keeps NoNewNames (createDirAll path : Fs Disk Unit) :=
  noNewNames_mkdirAll path.reverse

theorem noNewNames_removeFile : Keeps NoNewNames (removeFile path : Fs Disk Unit) :=
  keeps_change fun _ _ ↦ noNewNames_unlink

theorem noNewNames_removeDirAll : Keeps NoNewNames (removeDirAll path : Fs Disk Unit) :=
  keeps_change fun _ _ ↦ noNewNames_removeTree

theorem noNewNames_setMode (mode : Option UInt32) :
    Keeps NoNewNames (setMode path mode : Fs Disk Unit) := by
  cases mode with
  | none => exact keeps_pure _
  | some mode => exact keeps_change fun _ _ ↦ noNewNames_chmod

theorem noNewNames_makeDirTreeWritable (depth : Nat) :
    Keeps NoNewNames (makeDirTreeWritable depth path : Fs Disk Unit) := by
  induction depth generalizing path with
  | zero => exact keeps_throw _
  | succ depth ih =>
    refine (noNewNames_symlinkMetadata path).bind fun metadata ↦ ?_
    split
    · exact keeps_pure _
    · refine (noNewNames_setMode path _).bind fun _ ↦ (noNewNames_readDir path).bind fun children ↦
        Keeps.forM fun child _ ↦ ?_
      refine (noNewNames_symlinkMetadata _).bind fun childMetadata ↦ ?_
      split
      · exact ih _
      · exact keeps_pure _

theorem noNewNames_removePathIfExists :
    Keeps NoNewNames (removePathIfExists path : Fs Disk Unit) := by
  refine (noNewNames_symlinkMetadata path).attempt.bind fun r ↦ ?_
  split
  · split
    · exact keeps_get.bind fun d ↦ (noNewNames_makeDirTreeWritable path _).bind fun _ ↦
        noNewNames_removeDirAll path
    · exact noNewNames_removeFile path
  · split
    · exact keeps_pure _
    · exact keeps_throw _

theorem noNewNames_createParent : Keeps NoNewNames (createParent path : Fs Disk Unit) := by
  rw [createParent]
  split
  · exact noNewNames_createDirAll _
  · exact keeps_pure _

theorem noNewNames_installDir : Keeps NoNewNames (installDir path : Fs Disk Unit) := by
  refine (noNewNames_symlinkMetadata path).attempt.bind fun r ↦ ?_
  split
  · split
    · exact keeps_pure _
    · exact (noNewNames_removePathIfExists path).bind fun _ ↦ noNewNames_createDirAll path
  · split
    · exact noNewNames_createDirAll path
    · exact keeps_throw _

theorem noNewNames_installRemoteSymlink (root : PathBuf) (remote : Entry) :
    Keeps NoNewNames (installRemoteSymlink root remote : Fs Disk Unit) := by
  rw [installRemoteSymlink]
  split
  · exact keeps_throw _
  · split
    · exact keeps_throw _
    · exact (noNewNames_createParent _).bind fun _ ↦ (noNewNames_removePathIfExists _).bind fun _ ↦
        keeps_change fun _ _ ↦ noNewNames_symlink

end Calls

/-! ## Installing -/

section Install

variable {F : List Nat} {X : List PathBuf}

/-- Outside `X`, a file of `F` that had one name has one name. -/
def KeepsSole (F : List Nat) (X : List PathBuf) (d d' : Disk) : Prop := Sole F X d → Sole F X d'

instance : IsPreorder Disk (KeepsSole F X) where
  refl _ := id
  trans _ _ _ h h' := h' ∘ h

theorem keepsSole_of_noNewNames {α : Type} {m : Fs Disk α} (h : Keeps NoNewNames m) :
    Keeps (KeepsSole F X) m :=
  h.mono fun _ _ hd hs ↦ hs.of_noNewNames hd

/-- A path whose last name is none of the last names of `X`. -/
structure ApartFrom (X : List PathBuf) (path : PathBuf) (name : Str) : Prop where
  fileName_eq : path.getLast? = some name
  isEntry : IsEntry name
  ne : ∀ x ∈ X, x.getLast? ≠ some name

/-- Wherever its parent leads, it is not in `X`. -/
theorem ApartFrom.real_notMem {path real : PathBuf} {name : Str} (h : ApartFrom X path name)
    {d : Disk} (hreal : d.resolve false path = .ok real) : real ∉ X := by
  intro hX
  rw [← List.dropLast_append_getLast? name h.fileName_eq] at hreal
  obtain ⟨dir, rfl, -⟩ := resolve_concat h.isEntry hreal
  exact h.ne _ hX (by simp)

theorem keepsSole_installRemote (root : PathBuf) (remote : Entry) {tmp : Option PathBuf}
    (htmp : ∀ path ∈ tmp, ∃ name, ApartFrom X path name) :
    Keeps (KeepsSole F X) (installRemote root remote tmp : Fs Disk Unit) := by
  rw [installRemote.eq_def]
  split
  · split
    · exact keeps_throw _
    · next path =>
      obtain ⟨name, hname⟩ := htmp path rfl
      refine (keepsSole_of_noNewNames (noNewNames_createParent _)).bind fun _ ↦
        (keepsSole_of_noNewNames (noNewNames_removePathIfExists _)).bind fun _ ↦
          Keeps.bind (keeps_change fun d d' hd hs ↦ ?_) fun _ ↦
            keepsSole_of_noNewNames (noNewNames_setMode _ _)
      exact hs.rename (fun real ↦ hname.real_notMem) hd
  · exact keepsSole_of_noNewNames
      ((noNewNames_installDir _).bind fun _ ↦ noNewNames_setMode _ _)
  · exact keepsSole_of_noNewNames (noNewNames_installRemoteSymlink root remote)
  · exact keepsSole_of_noNewNames (noNewNames_removePathIfExists _)

end Install

/-! ## Applying -/

section Apply

open NodeM FileSystem

variable {F : List Nat} {X : List PathBuf}

/-- The folder stays where it is, and the disk keeps its single names. -/
structure Tidy (F : List Nat) (X : List PathBuf) (n n' : Node Disk) : Prop where
  root_eq : n'.folder.root = n.folder.root
  sole : Sole F X n.world → Sole F X n'.world

instance : IsPreorder (Node Disk) (Tidy F X) where
  refl _ := ⟨rfl, id⟩
  trans _ _ _ h h' := ⟨h'.root_eq.trans h.root_eq, h'.sole ∘ h.sole⟩

theorem tidy_fs {α : Type} {m : Fs Disk α} (h : Keeps (KeepsSole F X) m) :
    Keeps (Tidy F X) (fs m) := fun n ↦ ⟨rfl, h n.world⟩

theorem tidy_saveFile (name : Str) (update : FolderState → Store → Store) :
    Keeps (Tidy F X) (saveFile name update : NodeM Disk Unit) :=
  fun _ ↦ ⟨rfl, id⟩

variable [Blake3]

theorem tidy_commitChanges (changes : List Change) :
    Keeps (Tidy F X) (commitChanges changes : NodeM Disk Unit) := by
  rw [commitChanges]
  split
  · exact Keeps.bind (keeps_modify fun _ ↦ ⟨rfl, id⟩) fun _ ↦
      (tidy_saveFile _ _).bind fun _ ↦ tidy_saveFile _ _
  · exact keeps_pure _

omit [Blake3] in
theorem tidy_applyRemoteEntryCore (remote : Entry) {tmp : Option PathBuf}
    (htmp : ∀ path ∈ tmp, ∃ name, ApartFrom X path name) :
    Keeps (Tidy F X) (applyRemoteEntryCore remote tmp : NodeM Disk (List Change)) := by
  rw [applyRemoteEntryCore.eq_def]
  refine Keeps.bind ?_ fun _ ↦ Keeps.bind keeps_get fun n ↦ ?_
  · rw [ofResult.eq_def]
    split
    · exact keeps_pure _
    · exact keeps_throw _
  · dsimp only
    by_cases h : n.folder.shouldAcceptRemote remote
    · simp only [h, Bool.not_true, Bool.false_eq_true, ↓reduceIte]
      exact (tidy_fs (keepsSole_installRemote _ remote htmp)).bind fun _ _ ↦ ⟨rfl, id⟩
    · simp only [h, Bool.not_false, ↓reduceIte]
      cases tmp with
      | some tmp =>
        exact (tidy_fs (keepsSole_of_noNewNames (noNewNames_removeFile tmp))).attempt.bind fun _ ↦
          keeps_pure _
      | none => exact keeps_pure _

/-- Applying remote entries gives no file a second name. -/
theorem tidy_applyRemoteEntries {batch : List (Entry × Option PathBuf)}
    (hbatch : ∀ item ∈ batch, ∀ path ∈ item.2, ∃ name, ApartFrom X path name) :
    Keeps (Tidy F X) (applyRemoteEntries batch : NodeM Disk (List Change)) := by
  refine Keeps.bind ?_ fun changes ↦ (tidy_commitChanges changes).bind fun _ ↦ keeps_pure _
  rw [applyRemoteBatch]
  generalize ([] : List Change) = changes
  induction batch generalizing changes with
  | nil => exact keeps_pure _
  | cons item batch ih =>
    rw [List.forall_mem_cons] at hbatch
    exact Keeps.bind ((tidy_applyRemoteEntryCore item.1 hbatch.1).bind fun _ ↦ keeps_pure _)
      fun _ ↦ ih hbatch.2 _

end Apply

end Lilsync
