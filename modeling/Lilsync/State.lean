import Lilsync.Replica
import Lilsync.Scan
import Lilsync.Tree

/-!
# The folder state

`state.rs`: the methods of `FolderState`, as programs on a node: its memory
(`FolderState`), the state files under `.lil` (`Store`) and the world with the
folder in it.  A method that returns early with `?` leaves the node as it is at
that point.

The state files are kept apart from the rest of the world: what a write of the
other files does to them is not followed here.
-/

namespace Lilsync

open Std (ExtTreeMap ExtTreeSet)
open Lilsync.Lib

/-! ## Nodes -/

/-- `FolderState`. -/
structure FolderState extends Replica where
  root : PathBuf
  tree : TreeSnapshot
  liveTree : TreeSnapshot
  scanCache : ScanCache

/-- A state file: not there, unreadable, or with a value in it. -/
inductive Saved (α : Type) where
  | missing
  | corrupt
  | saved (value : α)

/-- The value of a file whose loss is tolerated. -/
def Saved.getD {α : Type} : Saved α → α → α
  | .saved value, _ => value
  | _, default => default

/-- The state files under `.lil`. -/
structure Store where
  lamport : Saved Nat
  entries : Saved Index
  gcWatermark : Saved GcWatermark
  scanCache : Saved (BTreeMap Str CachedFile)

/-- The state files of a folder that was never synced. -/
def Store.blank : Store := ⟨.missing, .missing, .missing, .missing⟩

/-- A node: its memory, its state files and the world it runs in. -/
structure Node (W : Type) where
  folder : FolderState
  store : Store
  world : W

/-- A node that has not been started. -/
def Node.blank {W : Type} [Blake3] (root : PathBuf) (origin : Str) (world : W) : Node W where
  folder := {
    root, origin
    lamport := 0
    gcWatermark := ∅
    entries := ∅
    minted := []
    tree := TreeSnapshot.empty
    liveTree := TreeSnapshot.empty
    scanCache := ScanCache.empty }
  store := Store.blank
  world := world

/-- Programs of a node. -/
abbrev NodeM (W : Type) := Proc IoError (Node W)

namespace NodeM

variable {W : Type} {α : Type}

/-- A file-system call of a node. -/
def fs (m : Fs W α) : NodeM W α := Proc.zoom Node.world (fun n w ↦ { n with world := w }) m

/-- `?` on a result. -/
def ofResult : IoResult α → NodeM W α
  | .ok a => pure a
  | .error err => throw err

def modifyFolder (f : FolderState → FolderState) : NodeM W Unit :=
  modify fun n ↦ { n with folder := f n.folder }

/-- Change the index, going on with a list of changes. -/
def record (f : Recorded → Recorded) (changes : List Change) : NodeM W (List Change) :=
  Proc.ofExec fun n ↦
    let st := f (n.folder.toReplica, changes)
    (.ok st.2, { n with folder := { n.folder with toReplica := st.1 } })

/-- Run a scan on the node's world and cache.  The sets it fills are its own. -/
def scan (m : ScanM W α) : NodeM W (α × ScanState W) :=
  Proc.ofExec fun n ↦
    let r := Proc.exec m ⟨n.world, n.folder.scanCache, ∅, ∅⟩
    (r.1.map fun a ↦ (a, r.2),
      { n with world := r.2.world, folder := { n.folder with scanCache := r.2.cache } })

end NodeM

/-! ## Saving and loading -/

section Saving

variable {W : Type} [FileSystem W]

open FileSystem NodeM

/-- `root.join(STATE_DIR)`. -/
def FolderState.stateDir (folder : FolderState) : PathBuf := folder.root.join Lilsync.stateDir

/-- Write a state file; a failure is logged and leaves the old file. -/
def saveFile (name : Str) (update : FolderState → Store → Store) : NodeM W Unit := do
  let folder := (← get).folder
  match ← Proc.attempt (fs (writeAtomic (folder.stateDir.join name))) with
  | .ok _ => modify fun n ↦ { n with store := update folder n.store }
  | .error _ => pure ()

/-- `save_lamport`. -/
def saveLamport : NodeM W Unit :=
  saveFile (lit "lamport") fun folder store ↦ { store with lamport := .saved folder.lamport }

/-- `save_entries`. -/
def saveEntries : NodeM W Unit :=
  saveFile (lit "entries.bin") fun folder store ↦ { store with entries := .saved folder.entries }

/-- `save_gc_watermark`. -/
def saveGcWatermark : NodeM W Unit :=
  saveFile (lit "gc-watermark.bin") fun folder store ↦
    { store with gcWatermark := .saved folder.gcWatermark }

/-- `ScanCache::save`: skipped when nothing changed since the last save. -/
def saveScanCache : NodeM W Unit := do
  let folder := (← get).folder
  if !folder.scanCache.dirty then pure ()
  else match ← Proc.attempt (fs (writeAtomic (folder.stateDir.join (lit "scan-cache.bin")))) with
    | .ok _ => modify fun n ↦ { n with
        store := { n.store with scanCache := .saved folder.scanCache.files }
        folder := { n.folder with scanCache := { n.folder.scanCache with dirty := false } } }
    | .error _ => pure ()

/-- `load_saved_entries`. -/
def loadSavedEntries : Saved Index → IoResult Index
  | .missing => .ok ∅
  | .corrupt => .error (.ofKind .other)
  | .saved entries => .ok entries

end Saving

/-! ## Trees -/

section Trees

variable {W : Type} [Blake3]

open NodeM

/-- Derive both trees from the index. -/
def FolderState.deriveTrees (folder : FolderState) : FolderState :=
  { folder with tree := deriveTree folder.entries, liveTree := deriveLiveTree folder.entries }

/-- Bring both trees up to date for a list of changed paths. -/
def FolderState.updateTrees (folder : FolderState) (changedPaths : List Str) : FolderState :=
  { folder with
    tree := updateTreeSnapshot folder.tree folder.entries changedPaths inclAll
    liveTree := updateTreeSnapshot folder.liveTree folder.entries changedPaths inclLive }

/-- What `apply_paths` and `apply_remote_entries` end with: if anything changed,
the trees follow and the clock and the index are saved. -/
def commitChanges [FileSystem W] (changes : List Change) : NodeM W Unit := do
  if changes ≠ [] then
    modifyFolder (·.updateTrees (changes.map Change.path))
    saveLamport
    saveEntries

end Trees

/-! ## Removing and installing -/

section Install

variable {W : Type} [FileSystem W]

open FileSystem

/-- `set_mode`. -/
def setMode (path : PathBuf) : Option UInt32 → Fs W Unit
  | some mode => setPermissions path mode
  | none => pure ()

/-- `sanitize_remote_mode`: strip setuid and setgid. -/
def sanitizeRemoteMode (mode : Option UInt32) : Option UInt32 := mode.map (· &&& ~~~0o6000)

/-- `make_dir_tree_writable`, down to the depth the system allows. -/
def makeDirTreeWritable : Nat → PathBuf → Fs W Unit
  | 0, _ => throw nameTooLong
  | depth + 1, path => do
    let metadata ← symlinkMetadata path
    if !metadata.isDir then pure ()
    else
      setMode path (some (metadata.permissions ||| 0o700))
      let children ← readDir path
      children.forM fun child ↦ do
        let childPath := path ++ [child]
        let childMetadata ← symlinkMetadata childPath
        if childMetadata.isDir then makeDirTreeWritable depth childPath else pure ()

/-- `remove_dir_all_writable`. -/
def removeDirAllWritable (path : PathBuf) : Fs W Unit := do
  makeDirTreeWritable (depthLimit (← get)) path
  removeDirAll path

/-- `remove_path_if_exists`. -/
def removePathIfExists (path : PathBuf) : Fs W Unit := do
  match ← Proc.attempt (symlinkMetadata path) with
  | .ok metadata => if metadata.isDir then removeDirAllWritable path else removeFile path
  | .error err => if err.kind = .notFound then pure () else throw err

/-- The parent directories of a destination. -/
def createParent (dest : PathBuf) : Fs W Unit :=
  match dest.parent with
  | some parent => createDirAll parent
  | none => pure ()

/-- `install_remote_file`. -/
def installRemoteFile (root : PathBuf) (remote : Entry) (tmpPath : PathBuf) : Fs W Unit := do
  let dest := root.join remote.path
  createParent dest
  removePathIfExists dest
  rename tmpPath dest
  setMode dest (sanitizeRemoteMode remote.mode)

/-- The function `install_remote_dir`. -/
def installDir (path : PathBuf) : Fs W Unit := do
  match ← Proc.attempt (symlinkMetadata path) with
  | .ok metadata =>
    if metadata.isDir then pure ()
    else
      removePathIfExists path
      createDirAll path
  | .error err => if err.kind = .notFound then createDirAll path else throw err

/-- The method `install_remote_dir`. -/
def installRemoteDir (root : PathBuf) (remote : Entry) : Fs W Unit := do
  let dest := root.join remote.path
  installDir dest
  setMode dest (sanitizeRemoteMode remote.mode)

/-- `install_remote_symlink`. -/
def installRemoteSymlink (root : PathBuf) (remote : Entry) : Fs W Unit := do
  let dest := root.join remote.path
  match remote.symlinkTarget with
  | none => throw (.invalidInput (.missingSymlinkTarget remote.path))
  | some target =>
    match validateSymlinkTarget target with
    | .error err => throw err
    | .ok _ =>
      createParent dest
      removePathIfExists dest
      symlink target dest

/-- Put a remote entry on the disk, by its kind. -/
def installRemote (root : PathBuf) (remote : Entry) (objectTmpPath : Option PathBuf) :
    Fs W Unit := do
  match remote.kind with
  | .file =>
    match objectTmpPath with
    | none => throw (.invalidInput (.missingTmpPath remote.path))
    | some tmp => installRemoteFile root remote tmp
  | .dir => installRemoteDir root remote
  | .symlink => installRemoteSymlink root remote
  | .tombstone => removePathIfExists (root.join remote.path)

end Install

/-! ## Remote entries -/

section Remote

variable {W : Type} [FileSystem W] [Blake3]

open FileSystem NodeM

/-- `apply_remote_entry_core`.  The paths it changed are those of its changes. -/
def applyRemoteEntryCore (remote : Entry) (objectTmpPath : Option PathBuf) :
    NodeM W (List Change) := do
  ofResult (validateRemotePath remote.path)
  let folder := (← get).folder
  if !folder.shouldAcceptRemote remote then
    match objectTmpPath with
    | some tmp =>
      let _ ← Proc.attempt (fs (removeFile tmp))
      pure []
    | none => pure []
  else
    fs (installRemote folder.root remote objectTmpPath)
    record (fun st ↦ Replica.recordRemote st.1 remote) []

/-- The loop of `apply_remote_entries`. -/
def applyRemoteBatch (batch : List (Entry × Option PathBuf)) : NodeM W (List Change) :=
  batch.foldlM (fun allChanges (remote, tmp) ↦ do
    let changes ← applyRemoteEntryCore remote tmp
    pure (allChanges ++ changes)) []

/-- `apply_remote_entries`: the trees and the files follow the whole batch. -/
def applyRemoteEntries (batch : List (Entry × Option PathBuf)) : NodeM W (List Change) := do
  let allChanges ← applyRemoteBatch batch
  commitChanges allChanges
  pure allChanges

/-- `apply_remote_entry`: a batch of one entry. -/
def applyRemoteEntry (remote : Entry) (objectTmpPath : Option PathBuf) : NodeM W (List Change) :=
  applyRemoteEntries [(remote, objectTmpPath)]

end Remote

/-! ## Local changes -/

section Local

variable {W : Type} [FileSystem W] [Blake3]

open FileSystem NodeM

/-- Record the entries a scan found, in the order of their paths. -/
def recordLive (live : BTreeMap Str Entry) (st : Recorded) : Recorded :=
  live.toList.foldl (fun st (path, entry) ↦ Replica.updateEntry path entry st) st

/-- Record as deleted what the scan did not see and the patterns do not hide. -/
def recordDeleted (seen : BTreeSet Str) (ignorePatterns : List IgnorePattern) (st : Recorded) :
    Recorded :=
  (st.1.entries.keys.filter fun path ↦
    !(seen.contains path || shouldIgnore path ignorePatterns)).foldl Replica.tombstonePath st

/-- `rescan`. -/
def rescan : NodeM W (List Change) := do
  let root := (← get).folder.root
  let ignorePatterns ← fs (loadIgnorePatterns root)
  let (_, live) ← scan (scanFolder root)
  let seen := live.entries.keys.foldl (fun s path ↦ s.insert path) live.unstable
  let changes ← record (recordLive live.entries) []
  modifyFolder fun folder ↦ { folder with scanCache := folder.scanCache.retainPaths seen }
  saveScanCache
  let changes ← record (recordDeleted seen ignorePatterns) changes
  modifyFolder FolderState.deriveTrees
  pure changes

/-- `apply_one_path`. -/
def applyOnePath (absPath : PathBuf) (relative : Str) (ignorePatterns : List IgnorePattern)
    (changes : List Change) : NodeM W (List Change) := do
  if shouldIgnore relative ignorePatterns then pure changes
  else match ← Proc.attempt (fs (symlinkMetadata absPath)) with
    | .ok metadata =>
      if metadata.isSymlink then
        match ← fs (readSupportedSymlink absPath) with
        | some target =>
          record (Replica.updateEntry relative
            (liveEntry relative .symlink none (some target) 0 none)) changes
        | none => pure changes
      else if metadata.isFile then
        match (← scan (observeFileCached absPath relative metadata true)).1 with
        | some observed =>
          record (Replica.updateEntry relative
            (liveEntry relative .file (some observed.contentHash) none observed.size observed.mode))
            changes
        | none => pure changes
      else if metadata.isDir then
        let changes ← record (Replica.updateEntry relative
          (liveEntry relative .dir none none 0 (mode metadata))) changes
        let root := (← get).folder.root
        let depth := depthLimit (← get).world
        let (_, live) ← scan (scanDir root ignorePatterns depth absPath)
        record (recordLive live.entries) changes
      else pure changes
    | .error err =>
      if err.kind = .notFound then record (Replica.tombstoneDescendants relative) changes
      else throw err

/-- One turn of the loop of `apply_paths`. -/
def applyPath (ignorePatterns : List IgnorePattern) (changes : List Change) (absPath : PathBuf) :
    NodeM W (List Change) := do
  match relativePath (← get).folder.root absPath with
  | .ok relative =>
    if relative = [] then pure changes
    else applyOnePath absPath relative ignorePatterns changes
  | .error _ => pure changes

/-- The event paths that can be resolved. -/
def normalizeEventPaths (absPaths : List PathBuf) : Fs W (List PathBuf) :=
  absPaths.foldlM (fun paths p ↦ do
    match ← normalizeEventPath p with
    | some p => pure (paths ++ [p])
    | none => pure paths) []

/-- `apply_paths`. -/
def applyPaths (absPaths : List PathBuf) : NodeM W (List Change) := do
  let canonicalPaths ← fs (normalizeEventPaths absPaths)
  let root := (← get).folder.root
  if canonicalPaths.contains (root.join ignoreFileName) then rescan
  else
    let ignorePatterns ← fs (loadIgnorePatterns root)
    let changes ← canonicalPaths.foldlM (applyPath ignorePatterns) []
    saveScanCache
    commitChanges changes
    pure changes

end Local

/-! ## Tombstone collection -/

section Collect

variable {W : Type} [FileSystem W] [Blake3]

open FileSystem NodeM

/-- `prune_tombstones_covered_by_watermark`. -/
def pruneTombstonesCoveredByWatermark : NodeM W Nat := do
  let (replica, count) := (← get).folder.prune
  if 0 < count then
    modifyFolder fun folder ↦ { folder with toReplica := replica }.deriveTrees
  pure count

/-- Jump past the watermark of the own origin. -/
def catchUp : NodeM W Unit := do
  let folder := (← get).folder
  if folder.lamport < folder.ownWatermark then
    modifyFolder fun folder ↦ { folder with lamport := folder.ownWatermark }
    saveLamport

/-- The first half of `merge_gc_watermark`: raise the watermark, and the clock
with it. -/
def raiseGcWatermark (incoming : GcWatermark) : NodeM W Bool := do
  let (replica, changed) := (← get).folder.mergeWatermark incoming
  modifyFolder fun folder ↦ { folder with toReplica := replica }
  if changed then
    saveGcWatermark
    catchUp
  pure changed

/-- `merge_gc_watermark`. -/
def mergeGcWatermark (incoming : GcWatermark) : NodeM W (Bool × Nat) := do
  let changed ← raiseGcWatermark incoming
  let pruned ← pruneTombstonesCoveredByWatermark
  if 0 < pruned then
    modifyFolder fun folder ↦ { folder with lamport := folder.lamport + 1 }
    saveLamport
  pure (changed, pruned)

/-- `gc_tombstones_for_converged_root`. -/
def gcTombstonesForConvergedRoot : NodeM W Nat := do
  let watermark := (← get).folder.tombstoneWatermark
  if watermark.isEmpty then pure 0
  else
    let (_, pruned) ← mergeGcWatermark watermark
    pure pruned

end Collect

/-! ## Starting -/

section Start

variable {W : Type} [FileSystem W] [Blake3]

open FileSystem NodeM

/-- `cleanup_recv_files`: whatever fails is left behind. -/
def cleanupRecvFiles (dir : PathBuf) : Fs W Unit := do
  match ← Proc.attempt (readDir dir) with
  | .error _ => pure ()
  | .ok names => names.forM fun name ↦ do
    if (lit "recv-").isPrefixOf (Utf8.lossy name) then
      let _ ← Proc.attempt (removePathIfExists (dir ++ [name]))

/-- The largest clock of an index. -/
def maxEntryLamport (entries : Index) : Nat :=
  (OrdMap.values entries).foldl (fun m e ↦ max m e.version.lamport) 0

/-- The memory `FolderState::new` starts from, before it scans. -/
def FolderState.load (root : PathBuf) (origin : Str) (store : Store) (entries : Index)
    (minted : List Version) : FolderState :=
  let gcWatermark := store.gcWatermark.getD ∅
  { root, origin
    lamport := max (max (store.lamport.getD 0) (maxEntryLamport entries))
      (gcWatermark[origin]?.getD 0)
    gcWatermark, entries, minted
    tree := TreeSnapshot.empty
    liveTree := TreeSnapshot.empty
    scanCache := ⟨store.scanCache.getD ∅, false⟩ }

/-- `FolderState::new`: the memory of the node is replaced. -/
def FolderState.new (root : PathBuf) (origin : Str) : NodeM W Unit := do
  let root ← fs (canonicalize root)
  let dir := root.join Lilsync.stateDir
  fs (createDirAll dir)
  fs (cleanupRecvFiles dir)
  let savedEntries ← ofResult (loadSavedEntries (← get).store.entries)
  modify fun n ↦ { n with
    folder := FolderState.load root origin n.store savedEntries n.folder.minted }
  let pruned ← pruneTombstonesCoveredByWatermark
  Proc.when (0 < pruned) saveEntries
  let changes ← rescan
  Proc.when (changes ≠ []) saveEntries
  saveLamport

end Start

end Lilsync
