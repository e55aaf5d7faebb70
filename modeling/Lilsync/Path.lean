import Lilsync.Lib.SlashPath

/-!
# Strings, paths and I/O errors

Rust strings are their UTF-8 bytes: their order, their length and the search
for `/`, NUL and `\` in them are those of the bytes.  The second section is
what the standard library's `Path` does with such a string on Unix, the third
the errors the program builds itself or receives from the operating system.
-/

namespace Lilsync

/-- A string, as its UTF-8 bytes. -/
abbrev Str := List UInt8

/-- The bytes of an ASCII literal of the source. -/
def lit (s : String) : Str := s.toList.map fun c ↦ c.toNat.toUInt8

/-- The separator of path components. -/
def slash : UInt8 := 47

/-- The NUL byte. -/
def nul : UInt8 := 0

/-- The backslash. -/
def backslash : UInt8 := 92

/-! ## Paths of the standard library -/

/-- A component of a path, as `Path::components` yields it on Unix. -/
inductive Component where
  | rootDir
  | curDir
  | parentDir
  | normal (name : Str)
deriving DecidableEq, Repr

/-- A single `/`-delimited piece.  Empty pieces and `.` vanish. -/
def pieceComponent (piece : Str) : Option Component :=
  if piece = [] ∨ piece = lit "." then none
  else if piece = lit ".." then some .parentDir
  else some (.normal piece)

/-- `Path::is_absolute`. -/
def isAbsolute (path : Str) : Bool := path.head? == some slash

/-- `Path::components`: repeated separators and inner `.` are normalised away,
a leading `.` is kept. -/
def components (path : Str) : List Component :=
  let body := (path.splitOn slash).filterMap pieceComponent
  if isAbsolute path then .rootDir :: body
  else if (path.splitOn slash).head? = some (lit ".") then .curDir :: body
  else body

/-- The components `validate_remote_path` and `validate_symlink_target` refuse. -/
def Component.isSpecial : Component → Bool
  | .normal _ => false
  | _ => true

/-! ## Errors -/

/-- The kinds of `io::Error` the program looks at or builds. -/
inductive ErrorKind where
  | notFound
  | notADirectory
  | isADirectory
  | alreadyExists
  | invalidInput
  | invalidData
  | unexpectedEof
  | timedOut
  | other
deriving DecidableEq, Repr

/-- The text of an error: one of the program's own messages with the value it
quotes, or what the operating system says. -/
inductive Message where
  /-- `remote path must not be empty` -/
  | emptyRemotePath
  /-- `invalid remote path {path:?}` -/
  | invalidRemotePath (path : Str)
  /-- `invalid symlink target {target:?}` -/
  | invalidSymlinkTarget (target : Str)
  /-- `missing tmp path for file {path}` -/
  | missingTmpPath (path : Str)
  /-- `missing symlink target for {path}` -/
  | missingSymlinkTarget (path : Str)
  /-- `plaintext chunk too large: {len}` -/
  | plaintextChunkTooLarge (len : Nat)
  /-- `blob too large: {len}` -/
  | blobTooLarge (len : Nat)
  /-- `blob length {len} exceeds maximum {max_len}` -/
  | blobLengthExceeds (len maxLen : Nat)
  /-- `object size mismatch from {peer}: expected {expected_size}, got {size}` -/
  | objectSizeMismatch (peer : Str) (expectedSize size : Nat)
  /-- `object hash mismatch: expected {hash}, got {hash}` -/
  | objectHashMismatch (expected actual : Str)
  /-- `unexpected GetObject response from {peer}: {response:?}`, up to the response -/
  | unexpectedGetObjectResponse (peer : Str)
  /-- `open {path}: {err}`, up to the error -/
  | openObject (path : List Str)
  /-- A message the peer sent. -/
  | fromPeer (message : Str)
  /-- `endpoint list too long for ticket ({len} bytes, max 384)` -/
  | endpointListTooLong (len : Nat)
  /-- `invalid ticket: too short` -/
  | ticketTooShort
  /-- `unsupported ticket version {version} (this build expects 2; tickets from older
  lilsync versions are not compatible)` -/
  | unsupportedTicketVersion (version : UInt8)
  /-- `invalid ticket: endpoint list is not utf8` -/
  | ticketNotUtf8
  /-- `invalid ticket: unexpected length {len}` -/
  | unexpectedTicketLength (len : Nat)
  /-- `invalid ticket char: {ch}` -/
  | invalidTicketChar (ch : UInt8)
  /-- `corrupt state index {path}: refusing to start with an empty index (deleting the
  file rebuilds it from disk, losing deletion history)` -/
  | corruptStateIndex (path : List Str)
  /-- A message of the operating system. -/
  | os
deriving DecidableEq, Repr

/-- `io::Error`. -/
structure IoError where
  kind : ErrorKind
  message : Message
deriving DecidableEq, Repr

/-- An error raised by a system call. -/
def IoError.ofKind (kind : ErrorKind) : IoError := ⟨kind, .os⟩

/-- An `InvalidInput` error with a message of the program. -/
def IoError.invalidInput (message : Message) : IoError := ⟨.invalidInput, message⟩

/-- `io::Error::other`. -/
def IoError.other (message : Message) : IoError := ⟨.other, message⟩

/-- `io::Result`. -/
abbrev IoResult := Except IoError

end Lilsync
