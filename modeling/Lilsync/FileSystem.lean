import Lilsync.Ignore
import Lilsync.Lib.Proc

/-!
# The file system

What the program asks the operating system and the standard library's `fs` for,
as an interface over an unknown world `W`.  A call may fail at any time and may
find the world changed, so a statement about every `FileSystem W` covers faults
and concurrent edits alike.

Paths are absolute and given by their components: `/a/b` is `[a, b]`.
-/

namespace Lilsync

open Lilsync.Lib

/-- A path of the file system, by its components. -/
abbrev PathBuf := List Str

namespace PathBuf

/-- The names a relative path adds when it is joined to another one. -/
def names (rel : Str) : PathBuf := (rel.splitOn slash).filter fun c ↦ c ≠ [] ∧ c ≠ lit "."

/-- `Path::join`: an absolute argument replaces the path. -/
def join (path : PathBuf) (rel : Str) : PathBuf :=
  if isAbsolute rel then names rel else path ++ names rel

/-- `Path::parent`. -/
def parent (path : PathBuf) : Option PathBuf := if path = [] then none else some path.dropLast

/-- `Path::file_name`: a path that ends in `..` has none. -/
def fileName (path : PathBuf) : Option Str :=
  path.getLast?.bind fun name ↦ if name = lit ".." then none else some name

/-- `Path::strip_prefix`. -/
def stripPrefix (path root : PathBuf) : Option PathBuf :=
  if root.isPrefixOf path then some (path.drop root.length) else none

end PathBuf

/-- What `lstat` says a path is. -/
inductive FileType where
  | file
  | dir
  | symlink
  | special
deriving DecidableEq, Repr

/-- `fs::Metadata`.  Times are nanoseconds; a file system may have none. -/
structure Metadata where
  fileType : FileType
  len : Nat
  modified : Option Nat
  permissions : UInt32
deriving DecidableEq, Repr

namespace Metadata

def isFile (m : Metadata) : Bool := m.fileType == .file

def isDir (m : Metadata) : Bool := m.fileType == .dir

def isSymlink (m : Metadata) : Bool := m.fileType == .symlink

end Metadata

/-- Programs on the file system. -/
abbrev Fs (W : Type) := Proc IoError W

/-- A file system: the calls the program makes. -/
class FileSystem (W : Type) where
  symlinkMetadata : PathBuf → Fs W Metadata
  readDir : PathBuf → Fs W (List Str)
  read : PathBuf → Fs W (List UInt8)
  readLink : PathBuf → Fs W Str
  canonicalize : PathBuf → Fs W PathBuf
  createDirAll : PathBuf → Fs W Unit
  removeFile : PathBuf → Fs W Unit
  removeDirAll : PathBuf → Fs W Unit
  rename : PathBuf → PathBuf → Fs W Unit
  setPermissions : PathBuf → UInt32 → Fs W Unit
  symlink : Str → PathBuf → Fs W Unit
  /-- `write_atomic`: whether the new content of a state file got in place. -/
  writeAtomic : PathBuf → Fs W Unit
  now : Fs W Nat
  sleep : Nat → Fs W Unit
  /-- The depth from which on the system refuses a path as too long. -/
  depthLimit : W → Nat

/-- The call found nothing: `err.kind() == io::ErrorKind::NotFound`. -/
def isNotFound {α : Type} : IoResult α → Bool
  | .error err => err.kind == .notFound
  | .ok _ => false

/-- The system refuses a path this long. -/
def nameTooLong : IoError := .ofKind .other

end Lilsync
