import Lilsync.Daemon
import Lilsync.Lib.Machine
import Lilsync.Replica.Watermark
import Lilsync.State.Collect
import Lilsync.State.Failure

/-!
# No version is issued twice

A node issues versions on many paths, forgets its memory when it stops and
starts again from its files.  As long as every call that issues a version saves
the clock, the files are enough to go on above all of them.  Three calls do not:
a full rescan that finds something, `apply_paths` that fails after recording
something, and `apply_remote_entries` that fails after burying something.  The
runs that avoid these never issue a version twice.
-/

namespace Lilsync

open Std (ExtTreeMap)
open Lilsync.Lib Lilsync.Lib.Proc

variable {W : Type} [FileSystem W] [Blake3]

open FileSystem Replica

/-! ## The process and its runs -/

/-- A node that may be running or not. -/
structure Process (W : Type) where
  node : Node W
  up : Bool

/-- What can happen to a node. -/
inductive Act (W : Type) where
  /-- Anything happens to the folder from outside. -/
  | edit (w : W)
  | filesystemPaths (paths : List PathBuf)
  /-- The sweep at the end of a reconciliation. -/
  | sweep (paths : List PathBuf)
  | remoteEntries (batch : List (Entry × Option PathBuf))
  | remoteWatermark (incoming : GcWatermark)
  | convergedGc
  | saveEntries
  /-- The node stops, at any time, and starts again. -/
  | restart

/-- The program a running node executes; errors are logged and dropped. -/
def Act.program : Act W → NodeM W Unit
  | .filesystemPaths paths => do let _ ← applyFilesystemPaths paths
  | .sweep paths => do let _ ← applyPaths paths
  | .remoteEntries batch => do let _ ← applyRemoteEntries batch
  | .remoteWatermark incoming => mergeRemoteGcWatermark incoming
  | .convergedGc => maybeGcTombstones
  | .saveEntries => Lilsync.saveEntries
  | .edit _ | .restart => pure ()

/-- A step of the process of the node `origin` on the folder `root`. -/
def Process.step (root : PathBuf) (origin : Str) (p : Process W) : Act W → Process W
  | .edit w => { p with node := { p.node with world := w } }
  | .restart =>
    let r := exec (FolderState.new root origin) p.node
    ⟨r.2, r.1.isOk⟩
  | act => if p.up then { p with node := (exec act.program p.node).2 } else p

/-! ## Calls that save what they issue -/

/-- Versions were issued above the clock; if there are new ones, the clock is saved. -/
structure Saves (n n' : Node W) : Prop where
  issues : Issues n.folder.toReplica n'.folder.toReplica
  saved : (n'.folder.minted = n.folder.minted ∧ n'.store.lamport = n.store.lamport) ∨
    n'.store.lamport = .saved n'.folder.lamport

omit [FileSystem W] [Blake3] in
theorem Saves.of_toReplica_eq {n n' : Node W} (hr : n'.folder.toReplica = n.folder.toReplica)
    (hs : n'.store.lamport = n.store.lamport) : Saves n n' :=
  ⟨hr ▸ .rfl' _, .inl ⟨congrArg minted hr, hs⟩⟩

/-- A full rescan that starts from `v` would find nothing new. -/
def RescanSettled (n : Node W) (v : W × ScanCache) : Prop :=
  ∀ s v', exec (survey n.folder.root) v = (.ok s, v') → s.Settled n.folder.entries

theorem saves_rescan {n : Node W} (h : RescanSettled n n.view) : Saves n (exec rescan n).2 := by
  have hspec := exec_rescan n
  match hsurvey : exec (survey n.folder.root) n.view with
  | (.error err, v) =>
    rw [hsurvey] at hspec
    rw [hspec]
    exact .of_toReplica_eq rfl rfl
  | (.ok s, v) =>
    rw [hsurvey] at hspec
    obtain ⟨w, files, cache, hexec⟩ := hspec
    have hplaced : s.Placed := Survey.yields_placed _ _ _ (congrArg Prod.fst hsurvey)
    have hset : s.Settled n.folder.entries := h s v hsurvey
    rw [hexec, Survey.record_eq_self hplaced hset]
    exact .of_toReplica_eq rfl rfl

/-- A call of `apply_paths` that saves what it issues: it does not fall back to a
rescan that finds something, and it does not fail after seeing something new. -/
structure PathsHarmless (n : Node W) (paths : List PathBuf) : Prop where
  rescan : ∀ v, fallbackView n paths = some v → RescanSettled n v
  failure : (exec (applyPaths paths) n).1.isOk = false →
    AllSettled n.folder.entries (eventSights n paths)

/-- Committing when no write fails. -/
theorem exec_commitChanges_of_writesSucceed (hw : WritesSucceed W) {cs : List Change}
    (hc : cs ≠ []) (n : Node W) :
    ∃ w, exec (commitChanges cs) n = (.ok (), committed cs true true w n) := by
  obtain ⟨w, l, e, h, hfail⟩ := exec_commitChanges hc n
  have hno : ¬ ∃ p w err, (exec (writeAtomic p) w : IoResult Unit × W).1 = .error err := by
    rintro ⟨p, w, err, herr⟩
    rw [hw p w] at herr
    cases herr
  cases l <;> cases e
  · exact absurd (hfail (.inl rfl)) hno
  · exact absurd (hfail (.inl rfl)) hno
  · exact absurd (hfail (.inr rfl)) hno
  · exact ⟨w, h⟩

theorem saves_applyPaths (hw : WritesSucceed W) {n : Node W} {paths : List PathBuf}
    (h : PathsHarmless n paths) : Saves n (exec (applyPaths paths) n).2 := by
  have hplaced : ∀ rs ∈ eventSights n paths, rs.2.Placed rs.1 := fun _ ↦ placed_of_mem_eventSights
  obtain ⟨hself, hadds⟩ := recordAll_eq_self_or_adds hplaced (n.folder.toReplica, [])
  obtain ⟨v, ⟨-, hfall, hrescan⟩ | ⟨err, herr⟩ | hok⟩ := exec_applyPaths paths n
  · rw [hrescan]
    have hs := saves_rescan (show RescanSettled (n.withView v) v from h.rescan v hfall)
    exact ⟨hs.issues, hs.saved⟩
  · rw [herr, hself (h.failure (by rw [herr]; rfl))]
    exact .of_toReplica_eq rfl rfl
  · have hgrown := (stamps_recordAll hplaced (n.folder.toReplica, [])).grown
    rw [hok]
    obtain ⟨w, files, dirty, hcache⟩ := exec_saveScanCache ((n.withReplica
      (recordAll (eventSights n paths) (n.folder.toReplica, [])).1).withView v)
    rw [exec_bind_ok hcache]
    by_cases hset : AllSettled n.folder.entries (eventSights n paths)
    · rw [hself hset]
      exact .of_toReplica_eq rfl rfl
    · obtain ⟨c, cs, hc⟩ := hadds hset
      obtain ⟨w', hcommit⟩ := exec_commitChanges_of_writesSucceed hw
        (show (recordAll (eventSights n paths) (n.folder.toReplica, [])).2 ≠ [] by simp [hc]) _
      rw [exec_bind_ok hcommit]
      exact ⟨hgrown.toIssues, .inr rfl⟩

/-- A call of `apply_remote_entries` that saves what it issues: if it fails, no
element that got applied has buried anything. -/
def RemoteHarmless (n : Node W) (batch : List (Entry × Option PathBuf)) : Prop :=
  (exec (applyRemoteEntries batch) n).1.isOk = false →
    ∀ pre item post cs n₁ cs' n₂, batch = pre ++ item :: post →
      exec (applyRemoteBatch pre) n = (.ok cs, n₁) →
      exec (applyRemoteEntryCore item.1 item.2) n₁ = (.ok cs', n₂) →
      n₁.folder.shouldAcceptRemote item.1 → ¬ Buries n₁.folder.toReplica item.1

omit [Blake3] in
/-- What a loop over a batch that got through has issued. -/
theorem issues_foldlM_applyRemoteItem {batch : List (Entry × Option PathBuf)}
    {cs cs' : List Change} {n n' : Node W}
    (h : exec (batch.foldlM applyRemoteItem cs) n = (.ok cs', n')) :
    n'.store = n.store ∧ Issues n.folder.toReplica n'.folder.toReplica ∧
      ∃ ds, cs' = cs ++ ds ∧ (ds = [] → n'.folder.toReplica = n.folder.toReplica) := by
  induction batch generalizing cs n with
  | nil =>
    cases h
    exact ⟨rfl, .rfl' _, [], by simp⟩
  | cons item batch ih =>
    rw [List.foldlM_cons, exec_bind, exec_applyRemoteItem] at h
    obtain ⟨w, ⟨err, hcore⟩ | ⟨-, hcore⟩ | ⟨-, hcore⟩⟩ :=
      exec_applyRemoteEntryCore_cases item.1 item.2 n
    · rw [hcore] at h
      cases h
    · rw [hcore] at h
      obtain ⟨hstore, hissues, ds, rfl, hds⟩ := ih h
      exact ⟨hstore, hissues, ds, by simp, hds⟩
    · rw [hcore] at h
      obtain ⟨hstore, hissues, ds, rfl, -⟩ := ih h
      obtain ⟨es, hes, -⟩ := stamps_recordRemote n.folder.toReplica item.1
      exact ⟨hstore, (issues_recordRemote _ _).trans hissues, _, List.append_assoc _ _ _,
        fun hnil ↦ by simp [hes] at hnil⟩

omit [Blake3] in
/-- A loop that buries nothing issues nothing. -/
theorem minted_foldlM_applyRemoteItem {batch : List (Entry × Option PathBuf)}
    {cs cs' : List Change} {n n' : Node W}
    (h : exec (batch.foldlM applyRemoteItem cs) n = (.ok cs', n'))
    (hb : ∀ pre item post ds n₁ ds' n₂, batch = pre ++ item :: post →
      exec (pre.foldlM applyRemoteItem cs) n = (.ok ds, n₁) →
      exec (applyRemoteEntryCore item.1 item.2) n₁ = (.ok ds', n₂) →
      n₁.folder.shouldAcceptRemote item.1 → ¬ Buries n₁.folder.toReplica item.1) :
    n'.folder.minted = n.folder.minted := by
  induction batch generalizing cs n with
  | nil =>
    cases h
    rfl
  | cons item batch ih =>
    rw [List.foldlM_cons, exec_bind] at h
    match hitem : exec (applyRemoteItem cs item) n with
    | (.error err, n₁) =>
      rw [hitem] at h
      cases h
    | (.ok ds, n₁) =>
      rw [hitem] at h
      have htail : n'.folder.minted = n₁.folder.minted := by
        refine ih h fun pre item' post es n₂ es' n₃ heq hpre hcore ↦ ?_
        refine hb (item :: pre) item' post es n₂ es' n₃ (by rw [heq]; rfl) ?_ hcore
        rw [List.foldlM_cons, exec_bind_ok hitem]
        exact hpre
      rw [htail]
      rw [exec_applyRemoteItem] at hitem
      obtain ⟨w, ⟨err, hcore⟩ | ⟨-, hcore⟩ | ⟨hacc, hcore⟩⟩ :=
        exec_applyRemoteEntryCore_cases item.1 item.2 n
      · rw [hcore] at hitem
        cases hitem
      · rw [hcore] at hitem
        cases hitem
        rfl
      · have hbury := hb [] item batch cs n _ _ rfl rfl hcore hacc
        rw [hcore] at hitem
        cases hitem
        change (n.folder.recordRemote item.1).1.minted = n.folder.minted
        rw [recordRemote_eq_of_not_buries hbury]
        rfl

theorem saves_applyRemoteEntries (hw : WritesSucceed W) {n : Node W}
    {batch : List (Entry × Option PathBuf)} (h : RemoteHarmless n batch) :
    Saves n (exec (applyRemoteEntries batch) n).2 := by
  match hrun : exec (applyRemoteEntries batch) n with
  | (.error err, n') =>
    obtain ⟨pre, item, post, cs, n₁, w, rfl, hpre, -, rfl⟩ := exec_applyRemoteEntries_error hrun
    obtain ⟨hstore, hissues, -⟩ := issues_foldlM_applyRemoteItem hpre
    have hminted : n₁.folder.minted = n.folder.minted := by
      refine minted_foldlM_applyRemoteItem hpre fun pre' item' post' ds n₂ ds' n₃ heq ↦ ?_
      refine h (by rw [hrun]; rfl) pre' item' (post' ++ item :: post) ds n₂ ds' n₃ ?_
      rw [heq, List.append_assoc, List.cons_append]
    exact ⟨hissues, .inl ⟨hminted, congrArg Store.lamport hstore⟩⟩
  | (.ok cs, n') =>
    rw [applyRemoteEntries, exec_bind] at hrun
    match hloop : exec (applyRemoteBatch batch) n with
    | (.error err, n₁) =>
      rw [hloop] at hrun
      cases hrun
    | (.ok ds, n₁) =>
      rw [hloop] at hrun
      dsimp only at hrun
      obtain ⟨hstore, hissues, es, rfl, hes⟩ := issues_foldlM_applyRemoteItem hloop
      by_cases hnil : ds = []
      · subst hnil
        cases hrun
        exact .of_toReplica_eq (hes rfl) (congrArg Store.lamport hstore)
      · obtain ⟨w, hcommit⟩ := exec_commitChanges_of_writesSucceed hw hnil n₁
        rw [exec_bind_ok hcommit] at hrun
        cases hrun
        exact ⟨hissues, .inr rfl⟩

/-! ## Calls that move the clock only -/

omit [FileSystem W] [Blake3] in
theorem Saves.of_ticked {n n' : Node W} {r : Replica} (h : Ticked n n' r)
    (hr : Ticks n.folder.toReplica r) : Saves n n' := by
  obtain ⟨rfl, -, -, hsaved⟩ := h
  exact ⟨.of_minted_eq hr.origin_eq hr.lamport_le hr.minted_eq,
    hsaved.imp (fun hs ↦ ⟨hr.minted_eq, hs.2⟩) id⟩

omit [FileSystem W] [Blake3] in
theorem Saves.congr {n n' n'' : Node W} (h : Saves n n') (hf : n''.folder = n'.folder)
    (hs : n''.store.lamport = n'.store.lamport) : Saves n n'' :=
  ⟨hf ▸ h.issues, by rw [hf, hs]; exact h.saved⟩

omit [Blake3] in
/-- Saving the index or not. -/
theorem exec_when_saveEntries (hw : WritesSucceed W) (c : Prop) [Decidable c] (n : Node W) :
    ∃ n', exec (when c saveEntries : NodeM W Unit) n = (.ok (), n') ∧ n'.folder = n.folder ∧
      n'.store.lamport = n.store.lamport := by
  rw [exec_when]
  split
  · obtain ⟨w, h⟩ := exec_saveFile_of_writesSucceed hw (lit "entries.bin")
      (fun folder store ↦ { store with entries := .saved folder.entries }) n
    exact ⟨_, h, rfl, rfl⟩
  · exact ⟨n, rfl, rfl, rfl⟩

omit [Blake3] in
/-- Saving the index leaves the clock file alone. -/
theorem saves_saveEntries (hw : WritesSucceed W) (n : Node W) :
    Saves n (exec (saveEntries : NodeM W Unit) n).2 := by
  obtain ⟨w, h⟩ := exec_saveFile_of_writesSucceed hw (lit "entries.bin")
    (fun folder store ↦ { store with entries := .saved folder.entries }) n
  rw [saveEntries, h]
  exact .of_toReplica_eq rfl rfl

/-! ## Starting -/

/-- `FolderState::new` starts from a clock that is not below the saved one and
saves what it issues.  If it fails, it has issued nothing. -/
theorem exec_folderStateNew (hw : WritesSucceed W) (root : PathBuf) (origin : Str) (n : Node W) :
    let r := exec (FolderState.new root origin : NodeM W Unit) n
    (r.1.isOk = false ∧ r.2.folder.minted = n.folder.minted ∧
        r.2.store.lamport = n.store.lamport) ∨
      ∃ loaded : Replica, loaded.origin = origin ∧ n.store.lamport.getD 0 ≤ loaded.lamport ∧
        loaded.minted = n.folder.minted ∧ Issues loaded r.2.folder.toReplica ∧
        r.2.store.lamport = .saved r.2.folder.lamport := by
  rw [FolderState.new, exec_bind, exec_fs_world]
  generalize exec (canonicalize root) n.world = r
  obtain ⟨_ | real, w⟩ := r
  · exact .inl ⟨rfl, rfl, rfl⟩
  dsimp only
  rw [exec_bind, exec_fs_world]
  generalize exec (createDirAll _ : Fs W Unit) _ = r
  obtain ⟨_ | _, w⟩ := r
  · exact .inl ⟨rfl, rfl, rfl⟩
  dsimp only
  rw [exec_bind, exec_fs_world]
  generalize exec (cleanupRecvFiles _ : Fs W Unit) _ = r
  obtain ⟨_ | _, w⟩ := r
  · exact .inl ⟨rfl, rfl, rfl⟩
  dsimp only
  rw [exec_get_bind]
  cases loadSavedEntries n.store.entries with
  | error err => exact .inl ⟨rfl, rfl, rfl⟩
  | ok entries =>
    rw [NodeM.ofResult, exec_pure_bind, exec_modify_bind]
    generalize hn : (Node.mk _ _ _ : Node W) = n₁
    obtain ⟨n₂, hprune, hr₂, -, hs₂, -⟩ := exec_pruneTombstonesCoveredByWatermark n₁
    obtain ⟨n₃, hwhen, hf₃, hs₃⟩ := exec_when_saveEntries hw (0 < n₁.folder.prune.2) n₂
    rw [exec_bind_ok hprune, exec_bind_ok hwhen, exec_bind]
    have hminted : n₃.folder.minted = n.folder.minted := by
      rw [hf₃, hr₂, ← hn]
      rfl
    have hlamport : n₃.store.lamport = n.store.lamport := by
      rw [hs₃, hs₂, ← hn]
    have hspec := exec_rescan n₃
    cases hsurvey : exec (survey n₃.folder.root) n₃.view with | mk r v => ?_
    cases r with
    | error err =>
      rw [hsurvey] at hspec
      rw [hspec]
      exact .inl ⟨rfl, hminted, hlamport⟩
    | ok s =>
      rw [hsurvey] at hspec
      obtain ⟨w, files, cache, hrescan⟩ := hspec
      rw [hrescan]
      dsimp only
      generalize hn₄ : (Node.mk _ _ _ : Node W) = n₄
      obtain ⟨n₅, hwhen', hf₅, hs₅⟩ := exec_when_saveEntries hw
        ((s.record (n₃.folder.toReplica, [])).2 ≠ []) n₄
      rw [exec_bind_ok hwhen', saveLamport]
      obtain ⟨w', hsave⟩ := exec_saveFile_of_writesSucceed hw (lit "lamport")
        (fun folder store ↦ { store with lamport := .saved folder.lamport }) n₅
      rw [hsave]
      refine .inr ⟨n₃.folder.toReplica, ?_, ?_, hminted, ?_, rfl⟩
      · rw [hf₃, hr₂, ← hn]
        rfl
      · rw [hf₃, hr₂, ← hn]
        exact (Nat.le_max_left _ _).trans (Nat.le_max_left _ _)
      · have hplaced : s.Placed := Survey.yields_placed _ _ _ (congrArg Prod.fst hsurvey)
        have hissues := (Survey.stamps_record hplaced (n₃.folder.toReplica, [])).grown.toIssues
        change Issues _ n₅.folder.toReplica
        rw [hf₅, ← hn₄]
        exact hissues

/-! ## Runs -/

/-- The step saves what it issues. -/
def Act.Harmless (n : Node W) : Act W → Prop
  | .filesystemPaths paths => if paths = [] then RescanSettled n n.view else PathsHarmless n paths
  | .sweep paths => PathsHarmless n paths
  | .remoteEntries batch => RemoteHarmless n batch
  | _ => True

/-- The process of the node `origin` on the folder `root`, when a running node
does only what `P` allows. -/
def process (P : Node W → Act W → Prop) (root : PathBuf) (origin : Str) : Machine (Process W) where
  init p := ∃ w, p = ⟨Node.blank root origin w, false⟩
  step p p' := ∃ act, (p.up → P p.node act) ∧ p' = p.step root origin act

/-- A node on its first start. -/
def Process.started (root : PathBuf) (origin : Str) (w : W) : Process W :=
  Process.step root origin ⟨Node.blank root origin w, false⟩ .restart

section Reachable

variable {P : Node W → Act W → Prop} {root : PathBuf} {origin : Str}

theorem reachable_act {p : Process W} (h : (process P root origin).Reachable p) (act : Act W)
    (hact : p.up → P p.node act) : (process P root origin).Reachable (p.step root origin act) :=
  .step h ⟨act, hact, rfl⟩

theorem reachable_started (w : W) :
    (process P root origin).Reachable (Process.started root origin w) :=
  reachable_act (.init ⟨w, rfl⟩) .restart fun h ↦ by cases h

end Reachable

/-- A running node saves what it issues at each harmless step. -/
theorem saves_program (hw : WritesSucceed W) {n : Node W} {act : Act W} (h : act.Harmless n) :
    Saves n (exec act.program n).2 := by
  have hdrop {α : Type} (m : NodeM W α) :
      (exec (do let _ ← m : NodeM W Unit) n).2 = (exec m n).2 := by
    rw [exec_bind]
    generalize exec m n = r
    obtain ⟨_ | _, n'⟩ := r <;> rfl
  cases act with
  | edit w => exact .of_toReplica_eq rfl rfl
  | restart => exact .of_toReplica_eq rfl rfl
  | filesystemPaths paths =>
    rw [Act.program, hdrop, applyFilesystemPaths]
    rw [Act.Harmless] at h
    split
    · next hnil => exact saves_rescan (by simpa [hnil] using h)
    · next hnil => exact saves_applyPaths hw (by simpa [hnil] using h)
  | sweep paths =>
    rw [Act.program, hdrop]
    exact saves_applyPaths hw h
  | remoteEntries batch =>
    rw [Act.program, hdrop]
    exact saves_applyRemoteEntries hw h
  | saveEntries => exact saves_saveEntries hw n
  | remoteWatermark incoming =>
    rw [Act.program, mergeRemoteGcWatermark]
    split
    · exact .of_toReplica_eq rfl rfl
    · obtain ⟨n₁, hmerge, ht⟩ := exec_mergeGcWatermark hw incoming n
      obtain ⟨n₂, hwhen, hf, hs⟩ := exec_when_saveEntries hw
        ((n.folder.toReplica.mergeGcWatermark incoming).2.2 ≠ 0) n₁
      rw [exec_bind_ok hmerge, hwhen]
      exact (Saves.of_ticked ht (ticks_mergeGcWatermark _ _)).congr hf hs
  | convergedGc =>
    obtain ⟨n₁, hgc, ht⟩ := exec_gcTombstonesForConvergedRoot hw n
    obtain ⟨n₂, hwhen, hf, hs⟩ := exec_when_saveEntries hw
      (n.folder.toReplica.gcTombstonesForConvergedRoot.2 ≠ 0) n₁
    rw [Act.program, maybeGcTombstones, exec_bind_ok hgc, hwhen]
    exact (Saves.of_ticked ht (ticks_gcTombstonesForConvergedRoot _)).congr hf hs

/-- The versions issued are different, come from this node, and are at or below
the saved clock; a running node is at or above it. -/
structure ClockSafe (origin : Str) (p : Process W) : Prop where
  pairwise : p.node.folder.minted.Pairwise fun v w ↦ w.lamport < v.lamport
  le_saved : ∀ v ∈ p.node.folder.minted,
    v.origin = origin ∧ v.lamport ≤ p.node.store.lamport.getD 0
  origin_eq : p.up → p.node.folder.origin = origin
  saved_le : p.up → p.node.store.lamport.getD 0 ≤ p.node.folder.lamport

namespace ClockSafe

variable {origin : Str} {p : Process W}

omit [FileSystem W] [Blake3] in
/-- Versions issued above the saved clock are new. -/
theorem issued (h : ClockSafe origin p) {r r' : Replica} (ho : r.origin = origin)
    (hl : p.node.store.lamport.getD 0 ≤ r.lamport) (hm : r.minted = p.node.folder.minted)
    (hi : Issues r r') : r'.minted.Pairwise (fun v w ↦ w.lamport < v.lamport) ∧
      ∀ v ∈ r'.minted, v.origin = origin ∧ v.lamport ≤ r'.lamport := by
  obtain ⟨vs, hvs, hpair, hv⟩ := hi.minted
  rw [hvs, hm]
  constructor
  · refine List.pairwise_append.mpr ⟨hpair, h.pairwise, fun v hvm w hwm ↦ ?_⟩
    exact Nat.lt_of_le_of_lt ((h.le_saved w hwm).2.trans hl) (hv v hvm).2.1
  · intro v hvm
    rcases List.mem_append.mp hvm with hvm | hvm
    · exact ⟨(hv v hvm).1.trans ho, (hv v hvm).2.2⟩
    · exact ⟨(h.le_saved v hvm).1, ((h.le_saved v hvm).2.trans hl).trans hi.lamport_le⟩

omit [FileSystem W] [Blake3] in
theorem saves (h : ClockSafe origin p) (hup : p.up) {n' : Node W} (hs : Saves p.node n') :
    ClockSafe origin { p with node := n' } := by
  obtain ⟨hpair, hle⟩ := h.issued (h.origin_eq hup) (h.saved_le hup) rfl hs.issues
  have ho := hs.issues.origin_eq.trans (h.origin_eq hup)
  rcases hs.saved with ⟨hm, hst⟩ | hst
  · refine ⟨hpair, fun v hv ↦ ?_, fun _ ↦ ho, fun _ ↦ ?_⟩
    · rw [hst]
      exact h.le_saved v (hm ▸ hv)
    · rw [hst]
      exact (h.saved_le hup).trans hs.issues.lamport_le
  · refine ⟨hpair, fun v hv ↦ ?_, fun _ ↦ ho, fun _ ↦ ?_⟩
    · rw [hst]
      exact hle v hv
    · rw [hst]
      exact le_rfl

theorem restart (hw : WritesSucceed W) (h : ClockSafe origin p) (root : PathBuf) :
    ClockSafe origin (p.step root origin .restart) := by
  rw [Process.step]
  rcases exec_folderStateNew hw root origin p.node with
    ⟨hfail, hm, hs⟩ | ⟨loaded, ho, hl, hm, hissues, hs⟩
  · refine ⟨?_, fun v hv ↦ ?_, fun hup ↦ ?_, fun hup ↦ ?_⟩
    · rw [hm]
      exact h.pairwise
    · rw [hs]
      exact h.le_saved v (hm ▸ hv)
    · exact absurd hup (by simp [hfail])
    · exact absurd hup (by simp [hfail])
  · obtain ⟨hpair, hle⟩ := h.issued ho hl hm hissues
    refine ⟨hpair, fun v hv ↦ ?_, fun _ ↦ hissues.origin_eq.trans ho, fun _ ↦ ?_⟩
    · rw [hs]
      exact hle v hv
    · rw [hs]
      exact le_rfl

/-- Every harmless step keeps the clock safe. -/
theorem step (hw : WritesSucceed W) (h : ClockSafe origin p) (root : PathBuf) (act : Act W)
    (hact : p.up → act.Harmless p.node) : ClockSafe origin (p.step root origin act) := by
  cases act with
  | edit w => exact ⟨h.pairwise, h.le_saved, h.origin_eq, h.saved_le⟩
  | restart => exact h.restart hw root
  | _ =>
    simp only [Process.step]
    split
    · next hup => exact h.saves hup (saves_program hw (hact hup))
    · exact h

end ClockSafe

/-- Started from the files it has now, the node would go on at or above every
version it has issued. -/
def ResumesAbove (origin : Str) (n : Node W) : Prop :=
  ∀ entries, loadSavedEntries n.store.entries = .ok entries → ∀ v ∈ n.folder.minted,
    v.lamport ≤ (FolderState.load n.folder.root origin n.store entries n.folder.minted).lamport

omit [Blake3] in
theorem writesSucceed_disk : WritesSucceed Posix.Disk := fun _ _ ↦ rfl

/-- A folder with one file in it. -/
def folderWith (content : List UInt8) : Posix.Disk :=
  .of [([lit "s"], .dir 0o755), ([lit "s", lit "x"], .file 1)] [(1, ⟨content, 0o644, 0⟩)]

end Lilsync
