import Lilsync.Lib.OrdMap

/-!
# A POSIX disk

A disk is a tree of named objects: directories, regular files, symbolic links
and special files.  It is stored flat, by the *real* path of each object, the
one without symbolic links in it; a regular file is a name for an inode.  A
system call resolves the path it is given, following the links on the way.

There are no permissions and no faults: a call fails only for what lies on the
disk.  The disk keeps a log of the real paths at which an object was created,
replaced or removed.
-/

namespace Lilsync.Lib.Posix

open Std (ExtTreeMap TransOrd)

/-- A file name. -/
abbrev Name := List UInt8

/-- A path by its names; `[]` is the root of the file system. -/
abbrev Path := List Name

instance : TransOrd Path := inferInstanceAs (TransOrd (List (List UInt8)))

/-- The separator `/`. -/
def separator : UInt8 := 47

/-- The name `.`. -/
def dot : Name := [46]

/-- The name `..`. -/
def dotdot : Name := [46, 46]

/-- What a name stands for. -/
inductive Obj where
  | dir (mode : UInt32)
  | file (inode : Nat)
  | symlink (target : Name)
  | special
deriving DecidableEq, Repr

def Obj.isDir : Obj → Bool
  | .dir _ => true
  | _ => false

/-- Two names for one file. -/
def Obj.sameFile : Obj → Obj → Bool
  | .file i, .file j => i == j
  | _, _ => false

/-- The content and the attributes of a regular file. -/
structure Inode where
  content : List UInt8
  mode : UInt32
  mtime : Nat
deriving DecidableEq, Repr

structure Disk where
  objects : BTreeMap Path Obj
  inodes : BTreeMap Nat Inode
  time : Nat
  /-- Where objects were created, replaced or removed, the latest first. -/
  touched : List Path

/-- The disk with the given objects and inodes. -/
def Disk.of (objects : List (Path × Obj)) (inodes : List (Nat × Inode)) : Disk :=
  ⟨ExtTreeMap.ofList objects, ExtTreeMap.ofList inodes, 0, []⟩

/-- Why a call fails. -/
inductive Errno where
  | noent
  | notdir
  | exist
  | isdir
  | inval
  | loop
deriving DecidableEq, Repr

namespace Disk

/-- The object at a real path. -/
def obj (d : Disk) (p : Path) : Option Obj := if p = [] then some (.dir 0o755) else d.objects[p]?

/-- There is a directory at the real path. -/
def IsDirAt (d : Disk) (p : Path) : Prop := ∃ m, d.obj p = some (.dir m)

/-! ## Path resolution -/

/-- How far the names lead before the next link. -/
inductive Stop where
  | done (real : Path)
  | link (dir : Path) (target : Name) (rest : List Name)
  | fail (e : Errno)

/-- Follow the names from the directory `cur` to the end or to the first link
that has to be followed.  The last name need not exist. -/
def scanNames (d : Disk) (follow : Bool) (cur : Path) : List Name → Stop
  | [] => .done cur
  | name :: rest =>
    if name = dot then scanNames d follow cur rest
    else if name = dotdot then scanNames d follow cur.dropLast rest
    else match d.obj (cur ++ [name]) with
      | some (.dir _) => scanNames d follow (cur ++ [name]) rest
      | some (.symlink target) =>
        if rest = [] ∧ ¬ follow then .done (cur ++ [name]) else .link cur target rest
      | some _ => if rest = [] then .done (cur ++ [name]) else .fail .notdir
      | none => if rest = [] then .done (cur ++ [name]) else .fail .noent

/-- The names a link's target stands for; a trailing separator asks for a
directory. -/
def targetNames (target : Name) : List Name :=
  (target.splitOn separator).filter (· ≠ [])
    ++ if target.getLast? = some separator then [dot] else []

/-- Where a relative or absolute target starts. -/
def targetStart (dir : Path) (target : Name) : Path :=
  if target.head? = some separator then [] else dir

/-- Resolve names from a directory, following at most `budget` links. -/
def resolveFrom (d : Disk) (follow : Bool) : Nat → Path → List Name → Except Errno Path
  | budget, cur, names =>
    match scanNames d follow cur names with
    | .done real => .ok real
    | .fail e => .error e
    | .link dir target rest =>
      match budget with
      | 0 => .error .loop
      | budget + 1 =>
        resolveFrom d follow budget (targetStart dir target) (targetNames target ++ rest)

/-- The number of links a resolution may follow. -/
def maxLinks : Nat := 40

/-- The real path a path stands for, the last link followed or not. -/
def resolve (d : Disk) (follow : Bool) (p : Path) : Except Errno Path :=
  resolveFrom d follow maxLinks [] p

/-! ## Queries -/

/-- The object a path stands for, with its real path. -/
def find (d : Disk) (follow : Bool) (p : Path) : Except Errno (Path × Obj) :=
  match d.resolve follow p with
  | .error e => .error e
  | .ok real =>
    match d.obj real with
    | some o => .ok (real, o)
    | none => .error .noent

/-- `lstat`. -/
def lstat (d : Disk) (p : Path) : Except Errno Obj := (d.find false p).map Prod.snd

/-- `stat`. -/
def stat (d : Disk) (p : Path) : Except Errno Obj := (d.find true p).map Prod.snd

/-- The path stands for a directory. -/
def isDir (d : Disk) (p : Path) : Bool :=
  match d.stat p with
  | .ok o => o.isDir
  | .error _ => false

/-- The names in the directory at a real path. -/
def childNames (d : Disk) (real : Path) : List Name :=
  d.objects.keys.filterMap fun k ↦
    if k ≠ [] ∧ k.dropLast = real then k.getLast? else none

/-- The inode with the given number. -/
def inode (d : Disk) (i : Nat) : Inode := d.inodes[i]?.getD ⟨[], 0, 0⟩

/-! ## Changes -/

/-- Put an object at a real path. -/
def put (d : Disk) (p : Path) (o : Obj) : Disk :=
  { d with objects := d.objects.insert p o, touched := p :: d.touched }

/-- Clear a real path and everything below it. -/
def clear (d : Disk) (p : Path) : Disk :=
  { d with objects := d.objects.filter fun k _ ↦ !p.isPrefixOf k, touched := p :: d.touched }

/-- Make an object at a path where there is none. -/
def make (d : Disk) (p : Path) (o : Obj) : Except Errno Disk :=
  match d.resolve false p with
  | .error e => .error e
  | .ok real => if (d.obj real).isSome then .error .exist else .ok (d.put real o)

/-- `mkdir`, with the usual mask. -/
def mkdir (d : Disk) (p : Path) : Except Errno Disk := d.make p (.dir 0o755)

/-- `symlink`. -/
def symlink (d : Disk) (target : Name) (p : Path) : Except Errno Disk :=
  if target = [] then .error .noent else d.make p (.symlink target)

/-- `unlink`. -/
def unlink (d : Disk) (p : Path) : Except Errno Disk :=
  match d.find false p with
  | .error e => .error e
  | .ok (real, o) => if o.isDir then .error .isdir else .ok (d.clear real)

/-- Remove a directory with everything in it; a link is not followed. -/
def removeTree (d : Disk) (p : Path) : Except Errno Disk :=
  match d.find false p with
  | .error e => .error e
  | .ok (real, o) => if o.isDir then .ok (d.clear real) else .error .notdir

/-- `rename` of anything but a directory.  Two names for one file both stay. -/
def rename (d : Disk) (p q : Path) : Except Errno Disk :=
  match d.find false p, d.resolve false q with
  | .error e, _ => .error e
  | .ok _, .error e => .error e
  | .ok (real, o), .ok dest =>
    if o.isDir then .error .inval
    else match d.obj dest with
      | some (.dir _) => .error .isdir
      | old =>
        if old.any o.sameFile then .ok d
        else .ok ({ d with objects := d.objects.erase real }.put dest o)

/-- The bits of a mode that `chmod` sets. -/
def permissionBits : UInt32 := 0o7777

/-- `chmod`: the last link is followed. -/
def chmod (d : Disk) (p : Path) (mode : UInt32) : Except Errno Disk :=
  match d.find true p with
  | .error e => .error e
  | .ok (real, .dir _) =>
    .ok { d with objects := d.objects.insert real (.dir (mode &&& permissionBits)) }
  | .ok (_, .file i) =>
    .ok { d with inodes := d.inodes.insert i { d.inode i with mode := mode &&& permissionBits } }
  | .ok _ => .ok d

/-- `mkdir -p`, for the names of a path in reverse.  A directory that is missing
is made after its parent. -/
def mkdirAll : List Name → Disk → Except Errno Unit × Disk
  | [], d => (.ok (), d)
  | name :: parent, d =>
    let p := (name :: parent).reverse
    match d.mkdir p with
    | .ok d => (.ok (), d)
    | .error e =>
      if e ≠ .noent then if d.isDir p then (.ok (), d) else (.error e, d)
      else match mkdirAll parent d with
        | (.error e, d) => (.error e, d)
        | (.ok _, d) =>
          match d.mkdir p with
          | .ok d => (.ok (), d)
          | .error e => if d.isDir p then (.ok (), d) else (.error e, d)

/-- The length of the longest real path. -/
def depth (d : Disk) : Nat := (d.objects.keys.map List.length).max?.getD 0

end Disk

end Lilsync.Lib.Posix
