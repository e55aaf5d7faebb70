import Lilsync.FileSystem
import Lilsync.Lib.Posix

/-!
# Running on a POSIX disk

The calls of `FileSystem`, carried out on a disk without faults.  `Store` holds
the state files, so writing them always succeeds and leaves the disk alone.
-/

namespace Lilsync

open Lilsync.Lib Lilsync.Lib.Posix

/-- The error a call number stands for. -/
def ofErrno : Errno → IoError
  | .noent => .ofKind .notFound
  | .notdir => .ofKind .notADirectory
  | .exist => .ofKind .alreadyExists
  | .isdir => .ofKind .isADirectory
  | .inval => .ofKind .invalidInput
  | .loop => .ofKind .other

namespace Posix

/-- A call that only looks. -/
def query {α : Type} (f : Disk → Except Errno α) : Fs Disk α :=
  Proc.ofExec fun d ↦ ((f d).mapError ofErrno, d)

/-- A call that changes the disk if it succeeds. -/
def change (f : Disk → Except Errno Disk) : Fs Disk Unit :=
  Proc.ofExec fun d ↦
    match f d with
    | .ok d' => (.ok (), d')
    | .error e => (.error (ofErrno e), d)

/-- The type bits of a mode. -/
def typeBits : Obj → UInt32
  | .dir _ => 0o040000
  | .file _ => 0o100000
  | .symlink _ => 0o120000
  | .special => 0o010000

/-- What `lstat` returns about an object. -/
def metadataOf (d : Disk) (o : Obj) : Metadata :=
  match o with
  | .dir mode => ⟨.dir, 0, some 0, typeBits o ||| mode⟩
  | .file i =>
    let inode := d.inode i
    ⟨.file, inode.content.length, some inode.mtime, typeBits o ||| inode.mode⟩
  | .symlink target => ⟨.symlink, target.length, some 0, typeBits o ||| 0o777⟩
  | .special => ⟨.special, 0, some 0, typeBits o⟩

/-- The content of a file. -/
def readFile (d : Disk) (p : PathBuf) : Except Errno (List UInt8) :=
  match d.stat p with
  | .error e => .error e
  | .ok (.file i) => .ok (d.inode i).content
  | .ok (.dir _) => .error .isdir
  | .ok _ => .error .inval

/-- The target of a link. -/
def readLink (d : Disk) (p : PathBuf) : Except Errno Str :=
  match d.lstat p with
  | .error e => .error e
  | .ok (.symlink target) => .ok target
  | .ok _ => .error .inval

/-- The names in a directory. -/
def readDir (d : Disk) (p : PathBuf) : Except Errno (List Str) :=
  match d.find true p with
  | .error e => .error e
  | .ok (real, .dir _) => .ok (d.childNames real)
  | .ok _ => .error .notdir

end Posix

open Posix in
instance : FileSystem Disk where
  symlinkMetadata p := query fun d ↦ (d.lstat p).map (metadataOf d)
  readDir p := query (readDir · p)
  read p := query (readFile · p)
  readLink p := query (readLink · p)
  canonicalize p := query fun d ↦ (d.find true p).map Prod.fst
  createDirAll p := Proc.ofExec fun d ↦
    ((Disk.mkdirAll p.reverse d).1.mapError ofErrno, (Disk.mkdirAll p.reverse d).2)
  removeFile p := change (·.unlink p)
  removeDirAll p := change (·.removeTree p)
  rename p q := change (·.rename p q)
  setPermissions p mode := change (·.chmod p mode)
  symlink target p := change (·.symlink target p)
  writeAtomic _ := pure ()
  now := query fun d ↦ .ok d.time
  sleep n := change fun d ↦ .ok { d with time := d.time + n }
  depthLimit d := d.depth + 2

/-! ## What calls keep -/

section Keeps

open Lilsync.Lib.Proc

variable {R : Disk → Disk → Prop}

theorem keeps_query [IsPreorder Disk R] {α : Type} (f : Disk → Except Errno α) :
    Keeps R (Posix.query f) := fun d ↦ refl_of R d

theorem keeps_change [IsPreorder Disk R] {f : Disk → Except Errno Disk}
    (h : ∀ d d', f d = .ok d' → R d d') : Keeps R (Posix.change f) := by
  intro d
  rw [Posix.change, exec_ofExec]
  split
  · next d' hf => exact h d d' hf
  · exact refl_of R d

end Keeps

end Lilsync
