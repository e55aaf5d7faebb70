import Lilsync.Scan

/-!
# What a scan keeps

A scan only looks at files and waits for them to stand still.  What the calls it
makes for that keep of the world, it keeps; what it keeps of the sets it fills is
decided by the entries it inserts.
-/

namespace Lilsync

open Lilsync.Lib Lilsync.Lib.Proc

variable {W : Type} [FileSystem W] {L : W → W → Prop}

open FileSystem

/-! ## Calls that look -/

/-- The calls that look at files, wait or write a state file keep the relation. -/
structure Looks (L : W → W → Prop) : Prop where
  symlinkMetadata (p : PathBuf) : Keeps L (symlinkMetadata p)
  readDir (p : PathBuf) : Keeps L (readDir p)
  read (p : PathBuf) : Keeps L (read p)
  readLink (p : PathBuf) : Keeps L (readLink p)
  canonicalize (p : PathBuf) : Keeps L (canonicalize p)
  writeAtomic (p : PathBuf) : Keeps L (writeAtomic p)
  now : Keeps L now
  sleep (t : Nat) : Keeps L (sleep t)

/-- The relation between any two worlds. -/
def Whatever (_ _ : W) : Prop := True

instance : IsPreorder W Whatever where
  refl _ := trivial
  trans _ _ _ _ _ := trivial

theorem looks_whatever : Looks (W := W) Whatever where
  symlinkMetadata _ _ := trivial
  readDir _ _ := trivial
  read _ _ := trivial
  readLink _ _ := trivial
  canonicalize _ _ := trivial
  writeAtomic _ _ := trivial
  now _ := trivial
  sleep _ _ := trivial

namespace Looks

variable [IsPreorder W L] (h : Looks L)

include h

theorem isRecentlyModified (metadata : Metadata) : Keeps L (isRecentlyModified metadata) := by
  rw [Lilsync.isRecentlyModified]
  split
  · exact keeps_pure _
  · exact h.now.bind fun t ↦ keeps_pure _

theorem loadIgnorePatterns (root : PathBuf) : Keeps L (loadIgnorePatterns root) := by
  refine (h.read _).attempt.bind fun r ↦ ?_
  split
  · split
    · exact keeps_pure _
    · exact keeps_throw _
  · split
    · exact keeps_pure _
    · exact keeps_throw _

theorem readSupportedSymlink (p : PathBuf) : Keeps L (readSupportedSymlink p) := by
  refine (h.readLink p).bind fun target ↦ ?_
  split
  · exact keeps_pure _
  · split
    · exact keeps_pure _
    · exact keeps_pure _

theorem normalizeEventPath (p : PathBuf) : Keeps L (normalizeEventPath p) := by
  rw [Lilsync.normalizeEventPath]
  split
  · refine (h.canonicalize p).attempt.bind fun r ↦ ?_
    split
    · exact keeps_pure _
    · exact keeps_pure _
  · refine (h.canonicalize _).attempt.bind fun r ↦ ?_
    split
    · exact keeps_pure _
    · exact keeps_pure _

variable [Blake3]

theorem hashFile (p : PathBuf) : Keeps L (hashFile p) := by
  rw [Lilsync.hashFile]
  exact Keeps.bind (h.read p) fun _ ↦ keeps_pure _

theorem observeFileAttempts (p : PathBuf) (waitForRecent : Bool) (attempts : Nat)
    (before : Metadata) : Keeps L (observeFileAttempts p waitForRecent attempts before) := by
  induction attempts generalizing before with
  | zero => exact keeps_pure _
  | succ attempts ih =>
    have hrecent (f : Bool → Fs W (Option ObservedFile)) (hf : ∀ recent, Keeps L (f recent)) :
        Keeps L (if waitForRecent then Lilsync.isRecentlyModified before >>= f
          else pure false >>= f) := by
      split
      · exact (h.isRecentlyModified before).bind hf
      · exact Keeps.pure_bind (hf false)
    rw [Lilsync.observeFileAttempts]
    refine hrecent _ fun recent ↦ ?_
    cases recent with
    | true =>
      refine Keeps.bind (R := L) (h.sleep _) fun _ ↦ (h.symlinkMetadata p).bind fun afterPause ↦ ?_
      split
      · exact keeps_pure _
      · exact ih afterPause
    | false =>
      refine Keeps.bind (R := L) (h.hashFile p) fun _ ↦ (h.symlinkMetadata p).bind fun afterHash ↦ ?_
      split
      · exact keeps_pure _
      · split
        · exact keeps_pure _
        · split
          · exact (h.sleep _).bind fun _ ↦ ih afterHash
          · exact ih afterHash

end Looks

/-! ## Scans -/

variable {R : ScanState W → ScanState W → Prop} {root path : PathBuf} {ps : List IgnorePattern}

/-- A relation that calls which keep `L` and changes of the cache keep. -/
structure KeptByLooks (L : W → W → Prop) (R : ScanState W → ScanState W → Prop) : Prop where
  fs {α : Type} {m : Fs W α} : Keeps L m → Keeps R (ScanM.fs m)
  modifyCache (f : ScanCache → ScanCache) : Keeps R (ScanM.modifyCache f)
  insertUnstable (k : Str) : Keeps R (ScanM.insertUnstable k)

namespace KeptByLooks

variable [IsPreorder W L] [IsPreorder (ScanState W) R] (h : KeptByLooks L R) (hL : Looks L)

include h hL

variable [Blake3]

theorem observeFileCached (p : PathBuf) (k : Str) (metadata : Metadata) (waitForRecent : Bool) :
    Keeps R (observeFileCached p k metadata waitForRecent) := by
  refine Keeps.bind (Keeps.bind (h.fs (hL.isRecentlyModified _)) fun recent ↦ ?_) fun cached ↦ ?_
  · split
    · exact keeps_pure _
    · exact keeps_get.bind fun _ ↦ keeps_pure _
  · split
    · exact keeps_pure _
    · refine (h.fs (hL.observeFileAttempts _ _ _ _)).bind fun observed ↦ ?_
      split
      · exact keeps_pure _
      · refine (h.fs (hL.symlinkMetadata p).attempt).bind fun _ ↦ ?_
        exact (h.modifyCache _).bind fun _ ↦ keeps_pure _

/-- One turn of the loop inserts entries for the relative path of the child, if it is
not ignored, and may descend into it. -/
theorem scanChild {descend : PathBuf → ScanM W Unit}
    (hentry : ∀ entry, relativePath root path = .ok entry.path →
      shouldIgnore entry.path ps = false → Keeps R (ScanM.insertEntry entry))
    (hdescend : ∀ relative, relativePath root path = .ok relative →
      shouldIgnore relative ps = false → Keeps R (descend path)) :
    Keeps R (scanChild root ps descend path) := by
  rw [Lilsync.scanChild]
  cases hrel : relativePath root path with
  | error err => exact keeps_throw_bind err _
  | ok relative =>
    refine Keeps.pure_bind ?_
    split
    · exact keeps_pure _
    · next hi =>
      have hi := Bool.eq_false_of_not_eq_true hi
      refine (h.fs (hL.symlinkMetadata path)).bind fun metadata ↦ ?_
      split
      · refine (h.fs (hL.readSupportedSymlink path)).bind fun target ↦ ?_
        split
        · exact hentry _ hrel hi
        · exact keeps_pure _
      · split
        · exact (hentry _ hrel hi).bind fun _ ↦ hdescend relative hrel hi
        · split
          · refine (h.observeFileCached hL path relative metadata false).bind fun observed ↦ ?_
            split
            · exact hentry _ hrel hi
            · exact h.insertUnstable relative
          · exact keeps_pure _

end KeptByLooks

end Lilsync
