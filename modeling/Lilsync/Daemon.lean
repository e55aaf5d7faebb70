import Lilsync.State

/-!
# The daemon

`daemon.rs`: how the daemon calls the methods of the folder state, and the root
reports it keeps of its peers.  Announcing and printing are left out.
-/

namespace Lilsync

open Std (ExtTreeMap)
open Lilsync.Lib

section Calls

variable {W : Type} [FileSystem W] [Blake3]

/-- `apply_filesystem_paths`: no paths ask for a full rescan. -/
def applyFilesystemPaths (paths : List PathBuf) : NodeM W (List Change) :=
  if paths = [] then rescan else applyPaths paths

/-- `merge_remote_gc_watermark`. -/
def mergeRemoteGcWatermark (incoming : GcWatermark) : NodeM W Unit := do
  if incoming.isEmpty then pure ()
  else
    let (_, pruned) ← mergeGcWatermark incoming
    Proc.when (pruned ≠ 0) saveEntries

/-- The second half of `maybe_gc_tombstones`, once the roots agree. -/
def maybeGcTombstones : NodeM W Unit := do
  let pruned ← gcTombstonesForConvergedRoot
  Proc.when (pruned ≠ 0) saveEntries

end Calls

/-! ## Root reports -/

/-- `RootReport`: what a peer announced last. -/
structure RootReport where
  stateRoot : Hash
  liveRoot : Hash
  lamport : Nat
deriving DecidableEq

/-- `RootReports`, by origin. -/
abbrev RootReports := BTreeMap Str RootReport

namespace RootReports

/-- `RootReports::update`: an older report never replaces a newer one. -/
def update (reports : RootReports) (origin : Str) (report : RootReport) : RootReports :=
  if reports[origin]?.all fun old ↦ old.lamport ≤ report.lamport then
    reports.insert origin report
  else reports

/-- `RootReports::all_active_match`. -/
def allActiveMatch (reports : RootReports) (localRoot : Hash) (activePeerIds : List Str) : Bool :=
  activePeerIds.all fun id ↦ reports[id]?.any fun report ↦ report.stateRoot == localRoot

end RootReports

end Lilsync
