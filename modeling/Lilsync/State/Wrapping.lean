import Lilsync.Replica.Wrapping
import Lilsync.State.Changes
import Lilsync.State.Cleared

/-!
# A folder state of a release build

In a release build the clock is a `u64` that wraps around.  These are the methods of a
folder state as a release build runs them, on a node together with the increments made
so far.  They differ from those of `Lilsync.State` where they record: as long as no
increment is made at the top, both do the same (`AgreesM`).
-/

namespace Lilsync

open Std (ExtTreeMap)
open Lilsync.Lib

/-- No increment was made at the top of `u64`. -/
def AllBelowTop (ticks : List Tick) : Prop := ∀ t ∈ ticks, t.lamport + 1 < 2 ^ 64

instance (ticks : List Tick) : Decidable (AllBelowTop ticks) :=
  inferInstanceAs (Decidable (∀ t ∈ ticks, t.lamport + 1 < 2 ^ 64))

namespace ReleaseBuild

/-- Programs of a node in a release build. -/
abbrev ReleaseM (W : Type) := Proc IoError (Node W × List Tick)

section Lift

variable {W α : Type}

/-- A program that makes no increment. -/
def lift (m : NodeM W α) : ReleaseM W α := Proc.zoom Prod.fst (fun s n ↦ (n, s.2)) m

/-- Change the index, going on with a list of changes. -/
def record (f : Ticking → Ticking) (changes : List Change) : ReleaseM W (List Change) :=
  Proc.ofExec fun s ↦
    let st := f ⟨s.1.folder.toReplica, changes, s.2⟩
    (.ok st.changes,
      ({ s.1 with folder := { s.1.folder with toReplica := st.replica } }, st.ticks))

/-- The increment after a prune. -/
def increment : ReleaseM W Unit := modify fun s ↦
  let t := Wrapping.tick s.1.folder.toReplica
  ({ s.1 with folder := { s.1.folder with lamport := t.value } }, t :: s.2)

end Lift

/-! ## The methods -/

def recordLive (live : BTreeMap Str Entry) (st : Ticking) : Ticking :=
  live.toList.foldl (fun st kv ↦ Wrapping.updateEntry kv.1 kv.2 st) st

def recordDeleted (seen : BTreeSet Str) (ignorePatterns : List IgnorePattern) (st : Ticking) :
    Ticking :=
  (st.replica.entries.keys.filter fun path ↦
    !(seen.contains path || shouldIgnore path ignorePatterns)).foldl Wrapping.tombstonePath st

section Methods

variable {W : Type} [FileSystem W] [Blake3]

open FileSystem NodeM

/-- `rescan`. -/
def rescan : ReleaseM W (List Change) := do
  let root := (← get).1.folder.root
  let ignorePatterns ← lift (fs (loadIgnorePatterns root))
  let (_, live) ← lift (scan (scanFolder root))
  let seen := live.entries.keys.foldl (fun s path ↦ s.insert path) live.unstable
  let changes ← record (recordLive live.entries) []
  lift (modifyFolder fun folder ↦
    { folder with scanCache := folder.scanCache.retainPaths seen })
  lift saveScanCache
  let changes ← record (recordDeleted seen ignorePatterns) changes
  lift (modifyFolder FolderState.deriveTrees)
  pure changes

/-- `apply_one_path`. -/
def applyOnePath (absPath : PathBuf) (relative : Str) (ignorePatterns : List IgnorePattern)
    (changes : List Change) : ReleaseM W (List Change) := do
  if shouldIgnore relative ignorePatterns then pure changes
  else match ← lift (Proc.attempt (fs (symlinkMetadata absPath))) with
    | .ok metadata =>
      if metadata.isSymlink then
        match ← lift (fs (readSupportedSymlink absPath)) with
        | some target =>
          record (Wrapping.updateEntry relative
            (liveEntry relative .symlink none (some target) 0 none)) changes
        | none => pure changes
      else if metadata.isFile then
        match (← lift (scan (observeFileCached absPath relative metadata true))).1 with
        | some observed =>
          record (Wrapping.updateEntry relative
            (liveEntry relative .file (some observed.contentHash) none observed.size observed.mode))
            changes
        | none => pure changes
      else if metadata.isDir then
        let changes ← record (Wrapping.updateEntry relative
          (liveEntry relative .dir none none 0 (mode metadata))) changes
        let root := (← get).1.folder.root
        let depth := depthLimit (← get).1.world
        let (_, live) ← lift (scan (scanDir root ignorePatterns depth absPath))
        record (recordLive live.entries) changes
      else pure changes
    | .error err =>
      if err.kind = .notFound then record (Wrapping.tombstoneDescendants relative) changes
      else throw err

/-- One turn of the loop of `apply_paths`. -/
def applyPath (ignorePatterns : List IgnorePattern) (changes : List Change) (absPath : PathBuf) :
    ReleaseM W (List Change) := do
  match relativePath (← get).1.folder.root absPath with
  | .ok relative =>
    if relative = [] then pure changes
    else applyOnePath absPath relative ignorePatterns changes
  | .error _ => pure changes

/-- `apply_paths`. -/
def applyPaths (absPaths : List PathBuf) : ReleaseM W (List Change) := do
  let canonicalPaths ← lift (fs (normalizeEventPaths absPaths))
  let root := (← get).1.folder.root
  if canonicalPaths.contains (root.join ignoreFileName) then rescan
  else
    let ignorePatterns ← lift (fs (loadIgnorePatterns root))
    let changes ← canonicalPaths.foldlM (applyPath ignorePatterns) []
    lift saveScanCache
    lift (commitChanges changes)
    pure changes

/-- `apply_remote_entry_core`. -/
def applyRemoteEntryCore (remote : Entry) (objectTmpPath : Option PathBuf) :
    ReleaseM W (List Change) := do
  lift (ofResult (validateRemotePath remote.path))
  let folder := (← get).1.folder
  if !folder.shouldAcceptRemote remote then
    match objectTmpPath with
    | some tmp =>
      let _ ← lift (Proc.attempt (fs (removeFile tmp)))
      pure []
    | none => pure []
  else
    lift (fs (installRemote folder.root remote objectTmpPath))
    record (Wrapping.recordRemote remote) []

/-- `apply_remote_entries`. -/
def applyRemoteEntries (batch : List (Entry × Option PathBuf)) : ReleaseM W (List Change) := do
  let allChanges ← batch.foldlM (fun allChanges item ↦ do
    let changes ← applyRemoteEntryCore item.1 item.2
    pure (allChanges ++ changes)) []
  lift (commitChanges allChanges)
  pure allChanges

/-- `merge_gc_watermark`. -/
def mergeGcWatermark (incoming : GcWatermark) : ReleaseM W (Bool × Nat) := do
  let changed ← lift (raiseGcWatermark incoming)
  let pruned ← lift pruneTombstonesCoveredByWatermark
  if 0 < pruned then
    increment
    lift saveLamport
  pure (changed, pruned)

/-- `gc_tombstones_for_converged_root`. -/
def gcTombstonesForConvergedRoot : ReleaseM W Nat := do
  let watermark := (← get).1.folder.tombstoneWatermark
  if watermark.isEmpty then pure 0
  else
    let (_, pruned) ← mergeGcWatermark watermark
    pure pruned

/-- `FolderState::new`. -/
def folderStateNew (root : PathBuf) (origin : Str) : ReleaseM W Unit := do
  let root ← lift (fs (canonicalize root))
  let dir := root.join Lilsync.stateDir
  lift (fs (createDirAll dir))
  lift (fs (cleanupRecvFiles dir))
  let savedEntries ← lift (ofResult (loadSavedEntries (← get).1.store.entries))
  lift (modify fun n ↦ { n with
    folder := FolderState.load root origin n.store savedEntries n.folder.minted })
  let pruned ← lift pruneTombstonesCoveredByWatermark
  lift (Proc.when (0 < pruned) saveEntries)
  let changes ← rescan
  lift (Proc.when (changes ≠ []) saveEntries)
  lift saveLamport

/-- The node after a call, whether it succeeded or failed. -/
def run (s : Node W × List Tick) : Call → Node W × List Tick
  | .rescan => (Proc.exec rescan s).2
  | .applyPaths absPaths => (Proc.exec (applyPaths absPaths) s).2
  | .applyRemoteEntries batch => (Proc.exec (applyRemoteEntries batch) s).2
  | .mergeGcWatermark incoming => (Proc.exec (mergeGcWatermark incoming) s).2
  | .gcTombstonesForConvergedRoot => (Proc.exec gcTombstonesForConvergedRoot s).2

/-- The runs of a folder state in a release build.  In between the folder and the state
files may change. -/
def machine : Machine (Node W × List Tick) where
  init s := ∃ root origin n₀, Proc.exec (folderStateNew root origin) (n₀, []) = (.ok (), s)
  step s s' := (∃ call, s' = run s call) ∨ ∃ w store, s' = ({ s.1 with world := w, store }, s.2)

/-- The method that is called. -/
def program : ReportingCall → ReleaseM W (List Change)
  | .rescan => rescan
  | .applyPaths absPaths => applyPaths absPaths
  | .applyRemoteEntries batch => applyRemoteEntries batch

end Methods

/-! ## Below the top -/

/-- A program adds to the log, and as long as no increment is made at the top it runs as
the given one does. -/
structure AgreesM {W α : Type} (f : ReleaseM W α) (g : NodeM W α) : Prop where
  grows : ∀ s, s.2 ⊆ (Proc.exec f s).2.2
  exec_eq : ∀ s, AllBelowTop (Proc.exec f s).2.2 →
    Proc.exec g s.1 = ((Proc.exec f s).1, (Proc.exec f s).2.1)

namespace AgreesM

open Proc

variable {W α β : Type} {f : ReleaseM W α} {g : NodeM W α}

theorem lift (m : NodeM W α) : AgreesM (ReleaseBuild.lift m) m :=
  ⟨fun s ↦ List.Subset.refl s.2, fun _ _ ↦ rfl⟩

theorem pure (a : α) : AgreesM (Pure.pure a : ReleaseM W α) (Pure.pure a) :=
  ⟨fun s ↦ List.Subset.refl s.2, fun _ _ ↦ rfl⟩

theorem throw (err : IoError) :
    AgreesM (MonadExcept.throw err : ReleaseM W α) (MonadExcept.throw err) :=
  ⟨fun s ↦ List.Subset.refl s.2, fun _ _ ↦ rfl⟩

theorem bind {k : α → ReleaseM W β} {k' : α → NodeM W β} (h : AgreesM f g)
    (hk : ∀ a, AgreesM (k a) (k' a)) : AgreesM (f >>= k) (g >>= k') := by
  refine ⟨fun s ↦ ?_, fun s htop ↦ ?_⟩
  · have hs := h.grows s
    rw [exec_bind]
    rcases hf : exec f s with ⟨err | a, s'⟩
    · rwa [hf] at hs
    · rw [hf] at hs
      exact List.Subset.trans hs ((hk a).grows s')
  · have hs := h.exec_eq s
    rw [exec_bind] at htop ⊢
    rw [exec_bind]
    rcases hf : exec f s with ⟨err | a, s'⟩
    · rw [hf] at hs htop
      rw [hs htop]
    · rw [hf] at hs htop
      have hbelow : AllBelowTop s'.2 := fun t ht ↦ htop t ((hk a).grows s' ht)
      rw [hs hbelow]
      exact (hk a).exec_eq s' htop

/-- Both read the same node. -/
theorem get_bind {k : Node W × List Tick → ReleaseM W β} {k' : Node W → NodeM W β}
    (hk : ∀ s, AgreesM (k s) (k' s.1)) : AgreesM (get >>= k) (get >>= k') :=
  ⟨fun s ↦ (hk s).grows s, fun s ↦ (hk s).exec_eq s⟩

theorem ite {c : Prop} [Decidable c] {f' : ReleaseM W α} {g' : NodeM W α} (h : c → AgreesM f g)
    (h' : ¬ c → AgreesM f' g') : AgreesM (if c then f else f') (if c then g else g') := by
  by_cases hc : c
  · rw [if_pos hc, if_pos hc]
    exact h hc
  · rw [if_neg hc, if_neg hc]
    exact h' hc

theorem foldlM {k : β → α → ReleaseM W β} {k' : β → α → NodeM W β}
    (h : ∀ b a, AgreesM (k b a) (k' b a)) (l : List α) (b : β) :
    AgreesM (l.foldlM k b) (l.foldlM k' b) := by
  induction l generalizing b with
  | nil => exact .pure b
  | cons a l ih => exact (h b a).bind fun b' ↦ ih b'

theorem record {f : Ticking → Ticking} {g : Recorded → Recorded} (h : Wrapping.Agrees f g)
    (changes : List Change) :
    AgreesM (W := W) (ReleaseBuild.record f changes) (NodeM.record g changes) := by
  refine ⟨fun s ↦ h.grows ⟨s.1.folder.toReplica, changes, s.2⟩, fun s htop ↦ ?_⟩
  have heq := h.recorded_eq ⟨s.1.folder.toReplica, changes, s.2⟩ htop
  change (Except.ok (g (s.1.folder.toReplica, changes)).2, _) = _
  have hrecorded : (s.1.folder.toReplica, changes) =
      (⟨s.1.folder.toReplica, changes, s.2⟩ : Ticking).recorded := rfl
  rw [hrecorded, ← heq]
  rfl

end AgreesM

/-! ## The methods agree -/

theorem agrees_recordLive (live : BTreeMap Str Entry) :
    Wrapping.Agrees (recordLive live) (Lilsync.recordLive live) where
  grows st := (Wrapping.Agrees.foldl (fun kv : Str × Entry ↦
    Wrapping.agrees_updateEntry kv.1 kv.2) live.toList).grows st
  recorded_eq st := (Wrapping.Agrees.foldl (fun kv : Str × Entry ↦
    Wrapping.agrees_updateEntry kv.1 kv.2) live.toList).recorded_eq st

theorem agrees_recordDeleted (seen : BTreeSet Str) (ignorePatterns : List IgnorePattern) :
    Wrapping.Agrees (recordDeleted seen ignorePatterns)
      (Lilsync.recordDeleted seen ignorePatterns) where
  grows st := (Wrapping.Agrees.foldl Wrapping.agrees_tombstonePath _).grows st
  recorded_eq st := (Wrapping.Agrees.foldl Wrapping.agrees_tombstonePath _).recorded_eq st

section Agreement

variable {W : Type} [FileSystem W] [Blake3]

theorem agrees_rescan : AgreesM (W := W) rescan Lilsync.rescan := by
  refine .get_bind fun s ↦ .bind (.lift _) fun ignorePatterns ↦ .bind (.lift _) fun live ↦ ?_
  refine .bind (.record (agrees_recordLive _) []) fun changes ↦ .bind (.lift _) fun _ ↦ ?_
  refine .bind (.lift _) fun _ ↦ .bind (.record (agrees_recordDeleted _ _) changes) fun changes ↦ ?_
  exact .bind (.lift _) fun _ ↦ .pure changes

theorem agrees_applyOnePath (absPath : PathBuf) (relative : Str)
    (ignorePatterns : List IgnorePattern) (changes : List Change) :
    AgreesM (W := W) (applyOnePath absPath relative ignorePatterns changes)
      (Lilsync.applyOnePath absPath relative ignorePatterns changes) := by
  refine .ite (fun _ ↦ .pure changes) fun _ ↦ .bind (.lift _) fun r ↦ ?_
  cases r with
  | error err =>
    exact .ite (fun _ ↦ .record (Wrapping.agrees_tombstoneDescendants relative) changes)
      fun _ ↦ .throw err
  | ok metadata =>
    refine .ite (fun _ ↦ .bind (.lift _) fun target ↦ ?_) fun _ ↦
      .ite (fun _ ↦ .bind (.lift _) fun observed ↦ ?_) fun _ ↦
      .ite (fun _ ↦ .bind (.record (Wrapping.agrees_updateEntry _ _) changes) fun changes ↦ ?_)
        fun _ ↦ .pure changes
    · cases target with
      | none => exact .pure changes
      | some target => exact .record (Wrapping.agrees_updateEntry _ _) changes
    · cases observed.1 with
      | none => exact .pure changes
      | some observed => exact .record (Wrapping.agrees_updateEntry _ _) changes
    · refine .get_bind fun s ↦ .get_bind fun s' ↦ .bind (.lift _) fun live ↦ ?_
      exact .record (agrees_recordLive _) changes

theorem agrees_applyPath (ignorePatterns : List IgnorePattern) (changes : List Change)
    (absPath : PathBuf) : AgreesM (W := W) (applyPath ignorePatterns changes absPath)
      (Lilsync.applyPath ignorePatterns changes absPath) := by
  refine .get_bind fun s ↦ ?_
  cases relativePath s.1.folder.root absPath with
  | error err => exact .pure changes
  | ok relative =>
    exact .ite (fun _ ↦ .pure changes) fun _ ↦
      agrees_applyOnePath absPath relative ignorePatterns changes

theorem agrees_applyPaths (absPaths : List PathBuf) :
    AgreesM (W := W) (applyPaths absPaths) (Lilsync.applyPaths absPaths) := by
  refine .bind (.lift _) fun paths ↦ .get_bind fun s ↦ .ite (fun _ ↦ agrees_rescan) fun _ ↦ ?_
  refine .bind (.lift _) fun ignorePatterns ↦
    .bind (.foldlM (agrees_applyPath ignorePatterns) paths []) fun changes ↦ ?_
  exact .bind (.lift _) fun _ ↦ .bind (.lift _) fun _ ↦ .pure changes

omit [Blake3] in
theorem agrees_applyRemoteEntryCore (remote : Entry) (tmp : Option PathBuf) :
    AgreesM (W := W) (applyRemoteEntryCore remote tmp)
      (Lilsync.applyRemoteEntryCore remote tmp) := by
  refine .bind (.lift _) fun _ ↦ .get_bind fun s ↦ .ite (fun _ ↦ ?_) fun _ ↦
    .bind (.lift _) fun _ ↦ ?_
  · cases tmp with
    | none => exact .pure []
    | some tmp => exact .bind (.lift _) fun _ ↦ .pure []
  · have hrecord := AgreesM.record (W := W) (Wrapping.agrees_recordRemote remote) []
    exact hrecord

theorem agrees_applyRemoteEntries (batch : List (Entry × Option PathBuf)) :
    AgreesM (W := W) (applyRemoteEntries batch) (Lilsync.applyRemoteEntries batch) := by
  refine .bind (.foldlM (fun allChanges item ↦ ?_) batch []) fun allChanges ↦
    .bind (.lift _) fun _ ↦ .pure allChanges
  exact .bind (agrees_applyRemoteEntryCore item.1 item.2) fun changes ↦
    .pure (allChanges ++ changes)

omit [FileSystem W] [Blake3] in
theorem agrees_increment : AgreesM (W := W) increment
    (NodeM.modifyFolder fun folder ↦ { folder with lamport := folder.lamport + 1 }) := by
  refine ⟨fun s ↦ List.subset_cons_self _ s.2, fun s htop ↦ ?_⟩
  have hvalue : (Wrapping.tick s.1.folder.toReplica).value = s.1.folder.lamport + 1 :=
    Tick.value_eq (htop _ List.mem_cons_self)
  simp only [increment, Proc.exec_modify, hvalue]
  rfl

theorem agrees_mergeGcWatermark (incoming : GcWatermark) :
    AgreesM (W := W) (mergeGcWatermark incoming) (Lilsync.mergeGcWatermark incoming) := by
  refine .bind (.lift _) fun changed ↦ .bind (.lift _) fun pruned ↦ .ite (fun _ ↦ ?_) fun _ ↦
    .pure (changed, pruned)
  exact .bind agrees_increment fun _ ↦ .bind (.lift _) fun _ ↦ .pure (changed, pruned)

theorem agrees_gcTombstonesForConvergedRoot : AgreesM (W := W) gcTombstonesForConvergedRoot
    Lilsync.gcTombstonesForConvergedRoot := by
  refine .get_bind fun s ↦ .ite (fun _ ↦ .pure 0) fun _ ↦ ?_
  exact .bind (agrees_mergeGcWatermark _) fun r ↦ .pure r.2

theorem agrees_folderStateNew (root : PathBuf) (origin : Str) :
    AgreesM (W := W) (folderStateNew root origin) (FolderState.new root origin) := by
  refine .bind (.lift _) fun root ↦ .bind (.lift _) fun _ ↦ .bind (.lift _) fun _ ↦
    .get_bind fun s ↦ .bind (.lift _) fun savedEntries ↦ .bind (.lift _) fun _ ↦ ?_
  refine .bind (.lift _) fun pruned ↦ .bind (.lift _) fun _ ↦ .bind agrees_rescan fun changes ↦ ?_
  exact .bind (.lift _) fun _ ↦ .lift _

theorem agrees_program (call : ReportingCall) :
    AgreesM (W := W) (program call) call.program := by
  cases call with
  | rescan => exact agrees_rescan
  | applyPaths absPaths => exact agrees_applyPaths absPaths
  | applyRemoteEntries batch => exact agrees_applyRemoteEntries batch

end Agreement

/-! ## The runs agree -/

section Runs

variable {W : Type} [FileSystem W] [Blake3] {s s' : Node W × List Tick} {changes : List Change}

theorem subset_run (s : Node W × List Tick) (call : Call) : s.2 ⊆ (run s call).2 := by
  cases call with
  | rescan => exact agrees_rescan.grows s
  | applyPaths absPaths => exact (agrees_applyPaths absPaths).grows s
  | applyRemoteEntries batch => exact (agrees_applyRemoteEntries batch).grows s
  | mergeGcWatermark incoming => exact (agrees_mergeGcWatermark incoming).grows s
  | gcTombstonesForConvergedRoot => exact agrees_gcTombstonesForConvergedRoot.grows s

theorem run_fst_of_allBelowTop {call : Call} (h : AllBelowTop (run s call).2) :
    (run s call).1 = Call.run s.1 call := by
  cases call with
  | rescan => exact (congrArg Prod.snd (agrees_rescan.exec_eq s h)).symm
  | applyPaths absPaths =>
    exact (congrArg Prod.snd ((agrees_applyPaths absPaths).exec_eq s h)).symm
  | applyRemoteEntries batch =>
    exact (congrArg Prod.snd ((agrees_applyRemoteEntries batch).exec_eq s h)).symm
  | mergeGcWatermark incoming =>
    exact (congrArg Prod.snd ((agrees_mergeGcWatermark incoming).exec_eq s h)).symm
  | gcTombstonesForConvergedRoot =>
    exact (congrArg Prod.snd (agrees_gcTombstonesForConvergedRoot.exec_eq s h)).symm

/-- A run without an increment at the top is one of the clock that does not wrap
around. -/
theorem reachable_of_allBelowTop (h : machine.Reachable s) (htop : AllBelowTop s.2) :
    folderStates.Reachable s.1 := by
  induction h with
  | @init s hnew =>
    obtain ⟨root, origin, n₀, hnew⟩ := hnew
    have hagree := (agrees_folderStateNew root origin).exec_eq (n₀, [])
    rw [hnew] at hagree
    exact .init ⟨root, origin, n₀, hagree htop⟩
  | @step s s' hs hstep ih =>
    rcases hstep with ⟨call, rfl⟩ | ⟨w, store, rfl⟩
    · have hbelow : AllBelowTop s.2 := fun t ht ↦ htop t (subset_run s call ht)
      rw [run_fst_of_allBelowTop htop]
      exact .step (ih hbelow) (.inl ⟨call, rfl⟩)
    · exact .step (ih htop) (.inr ⟨w, store, rfl⟩)

theorem reachable_folderStateNew {root : PathBuf} {origin : Str} {n : Node W}
    (h : (Proc.exec (folderStateNew root origin) (n, [])).1 = .ok ()) :
    machine.Reachable (Proc.exec (folderStateNew root origin) (n, [])).2 :=
  .init ⟨root, origin, n, by rw [← h]⟩

/-- In every run in which each increment was made below the top, a call that succeeds
reports exactly what it did. -/
theorem reported_of_allBelowTop (h : machine.Reachable s) {call : ReportingCall}
    (hexec : Proc.exec (program call) s = (.ok changes, s')) (htop : AllBelowTop s'.2) :
    Reported call.received s.1.folder.toReplica changes s'.1.folder.toReplica := by
  have hagree := agrees_program (W := W) call
  have hgrows := hagree.grows s
  have heq := hagree.exec_eq s
  rw [hexec] at hgrows heq
  have hbelow : AllBelowTop s.2 := fun t ht ↦ htop t (hgrows ht)
  have hreach := reachable_of_allBelowTop h hbelow
  exact reported_program (sound_of_reachable.2 s.1 hreach).1 (heq htop)

end Runs

/-! ## A clock at the top -/

section Example

open Lilsync.Lib.Posix Lilsync.Lib.Proc

/-- The folder once the directory `f` of a peer is in place and a directory `g` is made
beside it. -/
def besideDisk : Disk :=
  Disk.of [([lit "s"], .dir 0o755), ([lit "s", lit ".lil"], .dir 0o755),
    ([lit "s", lit "f"], .dir 0o755), ([lit "s", lit "g"], .dir 0o755)] []

/-- A node that has learnt of the directory `f` of a peer, with the clock the peer says;
then the directory `g` is made. -/
def besideNode [Blake3] (lamport : Nat) : Node Disk × List Tick :=
  let s := run (exec (folderStateNew [lit "s"] (lit "A"))
    (Node.blank [lit "s"] (lit "A") emptyDisk, [])).2
      (.applyRemoteEntries [(remoteDir (lit "f") lamport, none)])
  ({ s.1 with world := besideDisk }, s.2)

theorem reachable_besideNode (lamport : Nat) : letI : Blake3 := Blake3.reference
    machine.Reachable (besideNode lamport) := by
  let _ : Blake3 := Blake3.reference
  have hnew : (exec (folderStateNew [lit "s"] (lit "A"))
      (Node.blank [lit "s"] (lit "A") emptyDisk, [])).1 = .ok () := by decide +kernel
  have hrun := (reachable_folderStateNew hnew).step
    (.inl ⟨.applyRemoteEntries [(remoteDir (lit "f") lamport, none)], rfl⟩)
  change machine.Reachable (besideNode lamport)
  exact hrun.step (.inr ⟨besideDisk, _, rfl⟩)

/-- The call that finds the directory `g`. -/
def findBeside : ReportingCall := .applyPaths [[lit "s", lit "g"]]

theorem exists_exec_findBeside [Blake3] {s : Node Disk × List Tick}
    (h : (exec (program findBeside) s).1.isOk = true) : ∃ changes,
    exec (program findBeside) s = (.ok changes, (exec (program findBeside) s).2) := by
  cases hrun : (exec (program findBeside) s).1 with
  | ok changes => exact ⟨changes, by rw [← hrun]⟩
  | error err =>
    rw [hrun] at h
    cases h

/-- An ordinary clock leaves room. -/
theorem reported_findBeside : ∃ (_ : Blake3) (changes : List Change),
    Reported findBeside.received (besideNode 7).1.folder.toReplica changes
      (exec (program findBeside) (besideNode 7)).2.1.folder.toReplica := by
  let blake3 : Blake3 := Blake3.reference
  obtain ⟨changes, hexec⟩ := exists_exec_findBeside (s := besideNode 7) (by decide +kernel)
  have htop : AllBelowTop (exec (program findBeside) (besideNode 7)).2.2 := by decide +kernel
  have hreach : machine.Reachable (besideNode 7) := reachable_besideNode 7
  exact ⟨blake3, changes, reported_of_allBelowTop hreach hexec htop⟩

/-- The counterexample: the peer's directory has the largest clock there is, and the
directory found next is reported with the version 0. -/
theorem not_forall_reported : ¬ ∀ (_ : Blake3) (s s' : Node Disk × List Tick)
    (call : ReportingCall) (changes : List Change), machine.Reachable s →
    exec (program call) s = (.ok changes, s') →
      Reported call.received s.1.folder.toReplica changes s'.1.folder.toReplica := by
  intro h
  let blake3 : Blake3 := Blake3.reference
  obtain ⟨changes, hexec⟩ := exists_exec_findBeside (s := besideNode (2 ^ 64 - 1))
    (by decide +kernel)
  have hversions : (exec (program findBeside) (besideNode (2 ^ 64 - 1))).1.map
      (fun changes ↦ changes.map fun c ↦ c.new.version) = .ok [⟨0, lit "A"⟩] := by
    decide +kernel
  have hheld : ((besideNode (2 ^ 64 - 1)).1.folder.entries[lit "f"]?).map (·.version) =
      some ⟨2 ^ 64 - 1, lit "B"⟩ := by decide +kernel
  rw [hexec] at hversions
  obtain ⟨c, hc, hversion⟩ := List.map_eq_singleton_iff.mp (Except.ok.inj hversions)
  obtain ⟨e, he, heversion⟩ := Option.map_eq_some_iff.mp hheld
  have hreach : machine.Reachable (besideNode (2 ^ 64 - 1)) := reachable_besideNode _
  have hreported := h blake3 _ _ findBeside changes hreach hexec
  obtain ⟨labelled, hlabelled, -, hown⟩ := hreported.minted
  rw [hc] at hlabelled
  obtain ⟨⟨c, own⟩, rfl, rfl⟩ := List.map_eq_singleton_iff.mp hlabelled
  have hlabel := hown [] c own [] rfl
  cases own with
  | false => exact List.not_mem_nil hlabel
  | true =>
    have hlt := hlabel.held (lit "f") e he
    have hle := Version.lamport_le_of_le hlt.le
    rw [hversion, heversion] at hle
    exact absurd hle (by decide)

end Example

end ReleaseBuild

end Lilsync
