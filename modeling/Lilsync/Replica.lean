import Lilsync.Ignore

/-!
# The index and its clock

The part of `FolderState` that is plain data: the index, the Lamport clock and
the GC watermark.  What its methods do to these is written here as functions;
the disk and the saved files come in `Lilsync.State`.

A method that records changes takes the replica with the changes collected so
far and returns both.
-/

namespace Lilsync

open Std (ExtTreeMap)
open Lilsync.Lib

/-- The plain data of a node. -/
structure Replica where
  origin : Str
  lamport : Nat
  gcWatermark : GcWatermark
  entries : Index
  /-- Ghost: every version this node has issued, the latest first.  No function
  reads it. -/
  minted : List Version

/-- A replica and the changes recorded on the way to it. -/
abbrev Recorded := Replica × List Change

/-! ## Remote paths -/

/-- `validate_remote_path`. -/
def validateRemotePath (path : Str) : IoResult Unit :=
  if path = [] then .error (.invalidInput .emptyRemotePath)
  else if nul ∈ path ∨ backslash ∈ path then
    .error (.invalidInput (.invalidRemotePath path))
  else if (path.splitOn slash).any fun component ↦
      component == [] || component == lit "." || component == lit ".."
        || shouldIgnoreComponent component then
    .error (.invalidInput (.invalidRemotePath path))
  else if isAbsolute path || (components path).any Component.isSpecial then
    .error (.invalidInput (.invalidRemotePath path))
  else .ok ()

/-- The path passes `validate_remote_path`. -/
def ValidRemotePath (path : Str) : Prop := validateRemotePath path = .ok ()

instance (path : Str) : Decidable (ValidRemotePath path) :=
  match h : validateRemotePath path with
  | .ok _ => isTrue h
  | .error _ => isFalse fun h' ↦ by rw [ValidRemotePath, h] at h'; cases h'

namespace Replica

/-! ## Issuing versions -/

/-- `next_version`. -/
def nextVersion (r : Replica) : Version × Replica :=
  let version : Version := ⟨r.lamport + 1, r.origin⟩
  (version, { r with lamport := r.lamport + 1, minted := version :: r.minted })

/-- Put an entry into the index. -/
def insert (r : Replica) (path : Str) (entry : Entry) : Replica :=
  { r with entries := r.entries.insert path entry }

/-- Stamp an entry with the next version, put it in place of `old` and note the
change. -/
def stamp (st : Recorded) (path : Str) (old : Option Entry) (make : Version → Entry) : Recorded :=
  let (version, r) := st.1.nextVersion
  let new := make version
  (r.insert path new, st.2 ++ [⟨path, old, new⟩])

/-- Turn the entry at a path into a tombstone, unless it is one already. -/
def tombstonePath (st : Recorded) (path : Str) : Recorded :=
  match st.1.entries[path]? with
  | some old =>
    if old.kind = .tombstone then st else stamp st path (some old) (tombstoneEntry path old)
  | none => st

/-- `tombstone_descendants`: the path itself and everything below it. -/
def tombstoneDescendants (relative : Str) (st : Recorded) : Recorded :=
  (st.1.entries.keys.filter fun p ↦ p = relative ∨ SlashPath.Below slash relative p).foldl
    tombstonePath st

/-- `tombstone_child_descendants`: everything below the path. -/
def tombstoneChildDescendants (relative : Str) (st : Recorded) : Recorded :=
  (st.1.entries.keys.filter fun p ↦ SlashPath.Below slash relative p).foldl tombstonePath st

/-- `update_entry`: record what was observed at a path. -/
def updateEntry (path : Str) (live : Entry) (st : Recorded) : Recorded :=
  let existing := st.1.entries[path]?
  if existing.any (sameObservedState · live) then st
  else
    let replacesDirWithNonDir := existing.any (·.kind == .dir) && live.kind != .dir
    let st := stamp st path existing fun version ↦ { live with version }
    if replacesDirWithNonDir then tombstoneChildDescendants path st else st

/-! ## Remote entries -/

/-- `is_version_gced`. -/
def isVersionGced (r : Replica) (version : Version) : Bool :=
  r.gcWatermark[version.origin]?.any fun lamport ↦ version.lamport ≤ lamport

/-- `should_accept_remote`. -/
def shouldAcceptRemote (r : Replica) (remote : Entry) : Bool :=
  if ¬ ValidRemotePath remote.path then false
  else if remote.kind = .tombstone && r.isVersionGced remote.version then false
  else match r.entries[remote.path]? with
    | some entry => entry.version < remote.version
    | none => true

/-- What `apply_remote_entry_core` does to the index once the entry is on the
disk.  Returns the change of the entry and those of the entries it buries. -/
def recordRemote (r : Replica) (remote : Entry) : Recorded :=
  let old := r.entries[remote.path]?
  let r := { r with lamport := max r.lamport remote.version.lamport }
  let r := r.insert remote.path remote
  let (r, extraChanges) :=
    if remote.kind ≠ .dir then tombstoneChildDescendants remote.path (r, []) else (r, [])
  (r, ⟨remote.path, old, remote⟩ :: extraChanges)

/-! ## The GC watermark -/

/-- One turn of the loop of `merge_gc_watermark`. -/
def raiseWatermark (st : GcWatermark × Bool) (originLamport : Str × Nat) : GcWatermark × Bool :=
  let (origin, lamport) := originLamport
  let current := st.1[origin]?.getD 0
  if current < lamport then (st.1.insert origin lamport, true)
  else (st.1.insert origin current, st.2)

/-- The loop of `merge_gc_watermark`: the watermark raised, and whether it changed. -/
def mergeWatermark (r : Replica) (incoming : GcWatermark) : Replica × Bool :=
  let (gcWatermark, changed) := incoming.toList.foldl raiseWatermark (r.gcWatermark, false)
  ({ r with gcWatermark }, changed)

/-- The watermark of the node's own origin. -/
def ownWatermark (r : Replica) : Nat := r.gcWatermark[r.origin]?.getD 0

/-- The tombstones at or under the watermark. -/
def coveredTombstones (r : Replica) : List Str :=
  (r.entries.toList.filter fun (_, e) ↦ e.kind = .tombstone && r.isVersionGced e.version).map
    Prod.fst

/-- The index part of `prune_tombstones_covered_by_watermark`: what is left, and
how many tombstones went. -/
def prune (r : Replica) : Replica × Nat :=
  let toRemove := r.coveredTombstones
  ({ r with entries := toRemove.foldl (fun entries key ↦ entries.erase key) r.entries },
    toRemove.length)

/-- Jump past the watermark of the own origin: versions at or under it are dead
on arrival. -/
def catchUp (r : Replica) : Replica :=
  if r.lamport < r.ownWatermark then { r with lamport := r.ownWatermark } else r

/-- The first half of `merge_gc_watermark`: raise the watermark, and the clock
with it. -/
def raiseGcWatermark (r : Replica) (incoming : GcWatermark) : Replica × Bool :=
  let (r, changed) := r.mergeWatermark incoming
  (if changed then r.catchUp else r, changed)

/-- `merge_gc_watermark` without the saving: whether the watermark changed, and
how many tombstones went. -/
def mergeGcWatermark (r : Replica) (incoming : GcWatermark) : Replica × Bool × Nat :=
  let (r, changed) := r.raiseGcWatermark incoming
  let (r, pruned) := r.prune
  (if 0 < pruned then { r with lamport := r.lamport + 1 } else r, changed, pruned)

/-- The watermark `gc_tombstones_for_converged_root` builds from the tombstones. -/
def tombstoneWatermark (r : Replica) : GcWatermark :=
  (OrdMap.values r.entries).foldl (fun watermark entry ↦
    if entry.kind ≠ .tombstone then watermark
    else
      let origin := entry.version.origin
      watermark.insert origin (max (watermark[origin]?.getD 0) entry.version.lamport)) ∅

/-- `gc_tombstones_for_converged_root` without the saving. -/
def gcTombstonesForConvergedRoot (r : Replica) : Replica × Nat :=
  let watermark := r.tombstoneWatermark
  if watermark.isEmpty then (r, 0)
  else
    let (r, _, pruned) := r.mergeGcWatermark watermark
    (r, pruned)

end Replica

end Lilsync
