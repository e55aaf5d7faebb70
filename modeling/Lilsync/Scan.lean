import Lilsync.FileSystem

/-!
# Scanning

`scan.rs`: a directory is traversed recursively, a regular file is observed when
its stat data stands still around the hashing of its content, and a cache of
sizes and times spares the hashing of unchanged files.
-/

namespace Lilsync

open Std (ExtTreeMap ExtTreeSet)
open Lilsync.Lib

/-- `FILE_STABLE_AGE`, one second. -/
def fileStableAge : Nat := 1000000000

/-- `FILE_STABILITY_PAUSE`, 250 milliseconds. -/
def fileStabilityPause : Nat := 250000000

/-- `FILE_STABILITY_ATTEMPTS`. -/
def fileStabilityAttempts : Nat := 8

/-- What is observed of a stable file. -/
structure ObservedFile where
  contentHash : Hash
  size : Nat
  mode : Option UInt32

structure CachedFile where
  size : Nat
  mtime : Nat
  contentHash : Hash

/-- The cache of content hashes, by relative path. -/
structure ScanCache where
  files : BTreeMap Str CachedFile
  dirty : Bool

/-- `mode`: recorded on Unix for every object. -/
def mode (metadata : Metadata) : Option UInt32 := some metadata.permissions

/-- `same_file_observation`. -/
def sameFileObservation (left right : Metadata) : Bool :=
  left.len == right.len && left.modified == right.modified && mode left == mode right

namespace ScanCache

def empty : ScanCache := ⟨∅, false⟩

/-- `ScanCache::retain_paths`. -/
def retainPaths (cache : ScanCache) (seen : BTreeSet Str) : ScanCache :=
  let files := cache.files.filter fun path _ ↦ seen.contains path
  ⟨files, cache.dirty || files.size != cache.files.size⟩

/-- `ScanCache::record`. -/
def record (cache : ScanCache) (relative : Str) (size : Nat) (mtime : Option Nat) (hash : Hash) :
    ScanCache :=
  match mtime with
  | some mtime => ⟨cache.files.insert relative ⟨size, mtime, hash⟩, true⟩
  | none => cache

end ScanCache

/-- `relative_path`. -/
def relativePath (root path : PathBuf) : IoResult Str :=
  match path.stripPrefix root with
  | some names => .ok ([slash].intercalate (names.map Utf8.lossy))
  | none => .error (.ofKind .invalidInput)

/-- An entry as a scan finds it, not stamped yet. -/
def liveEntry (path : Str) (kind : EntryKind) (contentHash : Option Hash)
    (symlinkTarget : Option Str) (size : Nat) (mode : Option UInt32) : Entry :=
  { path, kind, contentHash, symlinkTarget, size, mode, version := placeholderVersion }

/-! ## Calls that look at files -/

section Files

variable {W : Type} [FileSystem W]

open FileSystem

/-- `is_recently_modified`. -/
def isRecentlyModified (metadata : Metadata) : Fs W Bool := do
  match metadata.modified with
  | none => pure false
  | some modified =>
    let t ← now
    pure (modified ≤ t && t - modified < fileStableAge)

/-- `load_ignore_patterns`: a file that is not UTF-8 is an error. -/
def loadIgnorePatterns (root : PathBuf) : Fs W (List IgnorePattern) := do
  match ← Proc.attempt (read (root.join ignoreFileName)) with
  | .ok contents =>
    if Utf8.valid contents then pure (parseIgnorePatterns contents)
    else throw (.ofKind .invalidData)
  | .error err => if err.kind = .notFound then pure [] else throw err

/-- `read_supported_symlink`. -/
def readSupportedSymlink (path : PathBuf) : Fs W (Option Str) := do
  let target ← readLink path
  if !Utf8.valid target then pure none
  else match validateSymlinkTarget target with
    | .ok _ => pure (some target)
    | .error _ => pure none

/-- `normalize_event_path`: the parent is resolved, the last component is not. -/
def normalizeEventPath (path : PathBuf) : Fs W (Option PathBuf) := do
  match path.parent with
  | none =>
    match ← Proc.attempt (canonicalize path) with
    | .ok path => pure (some path)
    | .error _ => pure none
  | some parent =>
    match ← Proc.attempt (canonicalize parent) with
    | .ok parent => pure (some (parent ++ path.fileName.toList))
    | .error _ => pure none

variable [Blake3]

/-- `hash_file`. -/
def hashFile (path : PathBuf) : Fs W Hash := do
  let contents ← read path
  pure (Blake3.digest contents)

/-- The attempts of `observe_file_when_stable` that are left. -/
def observeFileAttempts (path : PathBuf) (waitForRecent : Bool) :
    Nat → Metadata → Fs W (Option ObservedFile)
  | 0, _ => pure none
  | attempts + 1, before => do
    let recent ← if waitForRecent then isRecentlyModified before else pure false
    if recent then
      sleep fileStabilityPause
      let afterPause ← symlinkMetadata path
      if !afterPause.isFile then pure none
      else observeFileAttempts path waitForRecent attempts afterPause
    else
      let contentHash ← hashFile path
      let afterHash ← symlinkMetadata path
      if !afterHash.isFile then pure none
      else if sameFileObservation before afterHash then
        pure (some ⟨contentHash, afterHash.len, mode afterHash⟩)
      else
        if attempts ≠ 0 then sleep fileStabilityPause
        observeFileAttempts path waitForRecent attempts afterHash

/-- `observe_file_when_stable`. -/
def observeFileWhenStable (path : PathBuf) (before : Metadata) (waitForRecent : Bool) :
    Fs W (Option ObservedFile) :=
  observeFileAttempts path waitForRecent fileStabilityAttempts before

end Files

/-! ## The traversal -/

/-- What a scan changes while it runs: the world it looks at, the cache, and the
two sets it fills. -/
structure ScanState (W : Type) where
  world : W
  cache : ScanCache
  entries : BTreeMap Str Entry
  unstable : BTreeSet Str

/-- Programs of the scan. -/
abbrev ScanM (W : Type) := Proc IoError (ScanState W)

namespace ScanM

variable {W : Type}

/-- A file-system call of the scan. -/
def fs {α : Type} (m : Fs W α) : ScanM W α :=
  Proc.zoom ScanState.world (fun st w ↦ { st with world := w }) m

def modifyCache (f : ScanCache → ScanCache) : ScanM W Unit :=
  modify fun st ↦ { st with cache := f st.cache }

def insertEntry (entry : Entry) : ScanM W Unit :=
  modify fun st ↦ { st with entries := st.entries.insert entry.path entry }

def insertUnstable (path : Str) : ScanM W Unit :=
  modify fun st ↦ { st with unstable := st.unstable.insert path }

end ScanM

section Scan

variable {W : Type} [FileSystem W] [Blake3]

open FileSystem ScanM

/-- `ScanCache::lookup`. -/
def lookupCache (relative : Str) (metadata : Metadata) : ScanM W (Option Hash) := do
  if ← fs (isRecentlyModified metadata) then pure none
  else
    let cache := (← get).cache
    pure <| match cache.files[relative]?, metadata.modified with
      | some cached, some mtime =>
        if cached.size = metadata.len ∧ cached.mtime = mtime then some cached.contentHash else none
      | _, _ => none

/-- `observe_file_cached`. -/
def observeFileCached (path : PathBuf) (relative : Str) (metadata : Metadata)
    (waitForRecent : Bool) : ScanM W (Option ObservedFile) := do
  match ← lookupCache relative metadata with
  | some contentHash => pure (some ⟨contentHash, metadata.len, mode metadata⟩)
  | none =>
    match ← fs (observeFileWhenStable path metadata waitForRecent) with
    | none => pure none
    | some observed =>
      let mtime := match ← fs (Proc.attempt (symlinkMetadata path)) with
        | .ok m => m.modified
        | .error _ => none
      modifyCache fun cache ↦ cache.record relative observed.size mtime observed.contentHash
      pure (some observed)

/-- One turn of the loop of `scan_dir`, with what descends into a directory. -/
def scanChild (root : PathBuf) (ignorePatterns : List IgnorePattern)
    (descend : PathBuf → ScanM W Unit) (path : PathBuf) : ScanM W Unit := do
  let relative ← liftExcept (relativePath root path)
  if shouldIgnore relative ignorePatterns then pure ()
  else
    let metadata ← fs (symlinkMetadata path)
    if metadata.isSymlink then
      match ← fs (readSupportedSymlink path) with
      | some target => insertEntry (liveEntry relative .symlink none (some target) 0 none)
      | none => pure ()
    else if metadata.isDir then
      insertEntry (liveEntry relative .dir none none 0 (mode metadata))
      descend path
    else if metadata.isFile then
      match ← observeFileCached path relative metadata false with
      | some observed =>
        insertEntry (liveEntry relative .file (some observed.contentHash) none observed.size
          observed.mode)
      | none => insertUnstable relative
where
  /-- `?` on a result. -/
  liftExcept {α : Type} : IoResult α → ScanM W α
    | .ok a => pure a
    | .error err => throw err

/-- `scan_dir`, down to the depth the system allows. -/
def scanDir (root : PathBuf) (ignorePatterns : List IgnorePattern) :
    Nat → PathBuf → ScanM W Unit
  | 0, _ => throw nameTooLong
  | depth + 1, dir => do
    let children ← fs (readDir dir)
    let children := (children.map fun name ↦ dir ++ [name]).insertionSort
      fun a b ↦ (compare a b).isLE
    children.forM (scanChild root ignorePatterns (scanDir root ignorePatterns depth))

/-- `scan_folder`. -/
def scanFolder (root : PathBuf) : ScanM W Unit := do
  let ignorePatterns ← fs (loadIgnorePatterns root)
  scanDir root ignorePatterns (depthLimit (← get).world) root

end Scan

end Lilsync
