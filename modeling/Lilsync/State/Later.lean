import Lilsync.Disk
import Lilsync.Scan.Relative
import Lilsync.State.Sight

/-!
# Local calls leave the folder alone

`rescan` and `apply_paths` look at the folder, wait for files to stand still, and
write state files.  What these calls keep of the world, a local call keeps; on a
disk it only takes time.
-/

namespace Lilsync

open Lilsync.Lib Lilsync.Lib.Proc

/-! ## Any world -/

section World

variable {W : Type} [FileSystem W] {L : W → W → Prop} {root : PathBuf} {ps : List IgnorePattern}

open FileSystem

/-- Only the world has changed, up to `L`. -/
def KeptWorld (L : W → W → Prop) (st st' : ScanState W) : Prop := L st.world st'.world

/-- What a look sees has changed up to `L`. -/
def KeptView (L : W → W → Prop) (v v' : W × ScanCache) : Prop := L v.1 v'.1

/-- The folder is the same and the world has changed up to `L`. -/
def KeptFolder (L : W → W → Prop) (n n' : Node W) : Prop :=
  L n.world n'.world ∧ n'.folder.root = n.folder.root

variable [IsPreorder W L]

instance : IsPreorder (ScanState W) (KeptWorld L) where
  refl st := refl_of L st.world
  trans _ _ _ := trans_of L

instance : IsPreorder (W × ScanCache) (KeptView L) where
  refl v := refl_of L v.1
  trans _ _ _ := trans_of L

instance : IsPreorder (Node W) (KeptFolder L) where
  refl n := ⟨refl_of L n.world, rfl⟩
  trans _ _ _ := by
    rintro ⟨hw, hr⟩ ⟨hw', hr'⟩
    exact ⟨trans_of L hw hw', hr'.trans hr⟩

omit [FileSystem W] in
theorem keptByLooks_keptWorld : KeptByLooks L (KeptWorld L) where
  fs h st := h st.world
  modifyCache _ st := refl_of L st.world
  insertUnstable _ st := refl_of L st.world

omit [FileSystem W] [IsPreorder W L] in
theorem keptFolder_fs {α : Type} {m : Fs W α} (h : Keeps L m) : Keeps (KeptFolder L) (NodeM.fs m) :=
  fun n ↦ ⟨h n.world, rfl⟩

omit [FileSystem W] [IsPreorder W L] in
theorem keptFolder_scan {α : Type} {m : ScanM W α} (h : Keeps (KeptWorld L) m) :
    Keeps (KeptFolder L) (NodeM.scan m) := fun n ↦ ⟨h ⟨n.world, n.folder.scanCache, ∅, ∅⟩, rfl⟩

omit [FileSystem W] in
theorem keptFolder_record (f : Recorded → Recorded) (changes : List Change) :
    Keeps (KeptFolder (W := W) L) (NodeM.record f changes) := fun n ↦ ⟨refl_of L n.world, rfl⟩

omit [FileSystem W] [IsPreorder W L] in
theorem keptView_fs {α : Type} {m : Fs W α} (h : Keeps L m) : Keeps (KeptView L) (LookM.fs m) :=
  fun v ↦ h v.1

omit [FileSystem W] [IsPreorder W L] in
theorem keptView_scan {α : Type} {m : ScanM W α} (h : Keeps (KeptWorld L) m) :
    Keeps (KeptView L) (LookM.scan m) := fun v ↦ h ⟨v.1, v.2, ∅, ∅⟩

namespace Looks

variable (h : Looks L)

include h

theorem normalizeEventPaths (absPaths : List PathBuf) : Keeps L (normalizeEventPaths absPaths) := by
  refine Keeps.foldlM (fun paths p ↦ ?_) absPaths []
  refine (h.normalizeEventPath p).bind fun r ↦ ?_
  split
  · exact keeps_pure _
  · exact keeps_pure _

variable [Blake3]

theorem scanDir (depth : Nat) (dir : PathBuf) :
    Keeps (KeptWorld L) (scanDir root ps depth dir) := by
  induction depth generalizing dir with
  | zero => exact keeps_throw _
  | succ depth ih =>
    refine Keeps.bind (keptByLooks_keptWorld.fs (h.readDir dir)) fun children ↦ Keeps.forM fun path _ ↦ ?_
    exact keptByLooks_keptWorld.scanChild h (fun _ _ _ st ↦ refl_of L st.world) fun _ _ _ ↦ ih path

theorem scanFolder (root : PathBuf) : Keeps (KeptWorld L) (scanFolder root) :=
  Keeps.bind (keptByLooks_keptWorld.fs (h.loadIgnorePatterns root)) fun _ ↦
    keeps_get.bind fun _ ↦ h.scanDir _ root

omit [Blake3] in
theorem saveFile (name : Str) (update : FolderState → Store → Store) :
    Keeps (KeptFolder L) (saveFile (W := W) name update) := by
  refine keeps_get.bind fun n ↦ (keptFolder_fs (h.writeAtomic _)).attempt.bind fun r ↦ ?_
  split
  · exact keeps_modify fun n ↦ ⟨refl_of L n.world, rfl⟩
  · exact keeps_pure _

omit [Blake3] in
theorem saveScanCache : Keeps (KeptFolder L) (saveScanCache (W := W)) := by
  refine keeps_get.bind fun n ↦ ?_
  dsimp only
  split
  · exact keeps_pure _
  · refine (keptFolder_fs (h.writeAtomic _)).attempt.bind fun r ↦ ?_
    split
    · exact keeps_modify fun n ↦ ⟨refl_of L n.world, rfl⟩
    · exact keeps_pure _

theorem commitChanges (changes : List Change) :
    Keeps (KeptFolder L) (commitChanges (W := W) changes) := by
  rw [Lilsync.commitChanges]
  split
  · refine (keeps_modify fun n ↦ ⟨refl_of L n.world, rfl⟩).bind fun _ ↦ ?_
    exact (h.saveFile _ _).bind fun _ ↦ h.saveFile _ _
  · exact keeps_pure _

theorem rescan : Keeps (KeptFolder L) (rescan (W := W)) := by
  refine keeps_get.bind fun n ↦ (keptFolder_fs (h.loadIgnorePatterns _)).bind fun ps ↦ ?_
  refine (keptFolder_scan (h.scanFolder _)).bind fun live ↦ (keptFolder_record _ _).bind fun _ ↦ ?_
  refine (keeps_modify fun n ↦ ⟨refl_of L n.world, rfl⟩).bind fun _ ↦ h.saveScanCache.bind fun _ ↦ ?_
  refine (keptFolder_record _ _).bind fun _ ↦ ?_
  exact (keeps_modify fun n ↦ ⟨refl_of L n.world, rfl⟩).bind fun _ ↦ keeps_pure _

theorem look (root absPath : PathBuf) (relative : Str) (ps : List IgnorePattern) :
    Keeps (KeptView L) (look (W := W) root absPath relative ps) := by
  rw [Lilsync.look]
  split
  · exact keeps_pure _
  · refine (keptView_fs (h.symlinkMetadata absPath)).attempt.bind fun r ↦ ?_
    split
    · next metadata =>
      split
      · refine (keptView_fs (h.readSupportedSymlink absPath)).bind fun target ↦ ?_
        split
        · exact keeps_pure _
        · exact keeps_pure _
      · split
        · refine (keptView_scan (keptByLooks_keptWorld.observeFileCached h _ _ _ _)).bind fun r ↦ ?_
          split
          · exact keeps_pure _
          · exact keeps_pure _
        · split
          · refine keeps_get.bind fun v ↦ ?_
            exact (keptView_scan (h.scanDir _ _)).attempt.bind fun _ ↦ keeps_pure _
          · exact keeps_pure _
    · split
      · exact keeps_pure _
      · exact keeps_throw _

theorem applyOnePath (absPath : PathBuf) (relative : Str) (changes : List Change) :
    Keeps (KeptFolder L) (applyOnePath (W := W) absPath relative ps changes) := by
  intro n
  have hlook := h.look n.folder.root absPath relative ps n.view
  rw [exec_applyOnePath]
  generalize exec (Lilsync.look n.folder.root absPath relative ps) n.view = r at hlook
  obtain ⟨_ | s, v⟩ := r
  · exact ⟨hlook, rfl⟩
  · exact ⟨hlook, rfl⟩

theorem applyPaths (absPaths : List PathBuf) :
    Keeps (KeptFolder L) (applyPaths (W := W) absPaths) := by
  refine (keptFolder_fs (h.normalizeEventPaths absPaths)).bind fun paths ↦ keeps_get.bind fun n ↦ ?_
  dsimp only
  split
  · exact h.rescan
  · refine (keptFolder_fs (h.loadIgnorePatterns _)).bind fun ps ↦ ?_
    refine (Keeps.foldlM (fun changes absPath ↦ ?_) paths []).bind fun changes ↦ ?_
    · refine keeps_get.bind fun n ↦ ?_
      split
      · split
        · exact keeps_pure _
        · exact h.applyOnePath _ _ _
      · exact keeps_pure _
    · exact h.saveScanCache.bind fun _ ↦ (h.commitChanges _).bind fun _ ↦ keeps_pure _

end Looks

end World

/-! ## On a disk -/

open Lilsync.Lib.Posix

theorem looks_later : Looks Disk.Later where
  symlinkMetadata _ := keeps_query _
  readDir _ := keeps_query _
  read _ := keeps_query _
  readLink _ := keeps_query _
  canonicalize _ := keeps_query _
  writeAtomic _ := keeps_pure _
  now := keeps_query _
  sleep t := keeps_change fun d _ h ↦ ⟨d.time + t, (Except.ok.inj h).symm⟩

end Lilsync
