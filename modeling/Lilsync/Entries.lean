import Lilsync.Path
import Lilsync.Blake3
import Lilsync.Lib.OrdMap

/-!
# Entries

The rows of the index (`entries.rs`): what a node knows about one path, stamped
with the Lamport version that decides which of two entries for a path wins.
Clocks and sizes are natural numbers, so nothing here wraps around.
-/

namespace Lilsync

open Std Lilsync.Lib

/-- The kinds of entry. -/
inductive EntryKind where
  | file
  | dir
  | tombstone
  | symlink
deriving DecidableEq, Repr

/-- `EntryKind::as_str`. -/
def EntryKind.asStr : EntryKind → Str
  | .file => lit "file"
  | .dir => lit "dir"
  | .tombstone => lit "tombstone"
  | .symlink => lit "symlink"

/-- A Lamport clock value together with the node that issued it. -/
structure Version where
  lamport : Nat
  origin : Str
deriving DecidableEq, Repr

namespace Version

/-- Versions compare by clock first and by origin on a tie. -/
instance : Ord Version :=
  ⟨fun a b ↦ (compare a.lamport b.lamport).then (compare a.origin b.origin)⟩

instance : TransOrd Version :=
  inferInstanceAs (TransCmp (compareLex (compareOn Version.lamport) (compareOn Version.origin)))

instance : LawfulEqOrd Version where
  eq_of_compare {a b} h := by
    change (compare a.lamport b.lamport).then (compare a.origin b.origin) = .eq at h
    rw [Ordering.then_eq_eq] at h
    cases a
    cases b
    simp_all

instance : LinearOrder Version := .ofStd _

theorem lt_iff {a b : Version} : a < b ↔ compare a b = .lt := compare_eq_lt.symm

/-- A larger clock makes a larger version. -/
theorem lt_of_lamport_lt {a b : Version} (h : a.lamport < b.lamport) : a < b := by
  rw [lt_iff]
  change (compare a.lamport b.lamport).then (compare a.origin b.origin) = .lt
  rw [compare_lt_iff_lt.mpr h]
  rfl

/-- The clock never decreases along the order. -/
theorem lamport_le_of_le {a b : Version} (h : a ≤ b) : a.lamport ≤ b.lamport := by
  by_contra hn
  exact absurd (lt_of_lamport_lt (Nat.lt_of_not_le hn)) h.not_gt

end Version

/-- The greatest pruned tombstone clock, per origin. -/
abbrev GcWatermark := BTreeMap Str Nat

/-- What the index records about one path. -/
structure Entry where
  path : Str
  kind : EntryKind
  contentHash : Option Hash
  symlinkTarget : Option Str
  size : Nat
  mode : Option UInt32
  version : Version
deriving DecidableEq, Repr

/-- An entry and what it replaced. -/
structure Change where
  path : Str
  old : Option Entry
  new : Entry
deriving DecidableEq, Repr

/-- The index: entries by path. -/
abbrev Index := BTreeMap Str Entry

/-- The index made of a list of entries. -/
def indexOf (l : List Entry) : Index := ExtTreeMap.ofList (l.map fun e ↦ (e.path, e))

/-- `tombstone_entry`: the record that `path` is gone, keeping the old mode. -/
def tombstoneEntry (path : Str) (old : Entry) (version : Version) : Entry :=
  { path, kind := .tombstone, contentHash := none, symlinkTarget := none, size := 0,
    mode := old.mode, version }

/-- `placeholder_version`, carried by entries fresh from a scan. -/
def placeholderVersion : Version := ⟨0, []⟩

/-- `same_observed_state`: everything agrees but the version. -/
def sameObservedState (left right : Entry) : Bool :=
  left.path == right.path
    && left.kind == right.kind
    && left.contentHash == right.contentHash
    && left.symlinkTarget == right.symlinkTarget
    && left.size == right.size
    && left.mode == right.mode

/-- Two entries show the same state exactly when they differ at most in their
versions. -/
theorem sameObservedState_iff {left right : Entry} :
    sameObservedState left right ↔ { left with version := right.version } = right := by
  cases left
  cases right
  simp [sameObservedState, and_assoc]

/-- `validate_symlink_target`. -/
def validateSymlinkTarget (target : Str) : IoResult Unit :=
  if target = [] ∨ nul ∈ target ∨ backslash ∈ target then
    .error (.invalidInput (.invalidSymlinkTarget target))
  else if isAbsolute target || (components target).any Component.isSpecial then
    .error (.invalidInput (.invalidSymlinkTarget target))
  else .ok ()

end Lilsync
