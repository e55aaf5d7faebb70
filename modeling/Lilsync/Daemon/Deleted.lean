import Lilsync.Daemon.Reports
import Lilsync.Group.Views
import Lilsync.Lib.Cells
import Lilsync.Replica.Pull

/-!
# Deleted paths do not come back

Some nodes edit their folders, pull single entries from each other, announce their
roots and their watermarks, and prune their tombstones once the last report of every
peer is their own root.  Announcements arrive late, in any order and more than once,
so a report may be of an index its sender has long left behind.

The versions at a path are cells of `Lilsync.Lib.Cells`.  Whatever a watermark covers
is stable, so a tombstone that is pruned is one that every node has had, or a later entry in
its place.
-/

namespace Lilsync

open Std (ExtTreeMap)
open Lilsync.Lib Lilsync.Lib.Cells

/-! ## Clusters -/

/-- A node and what it has heard of its peers. -/
structure ClusterNode where
  replica : Replica
  reports : RootReports

/-- `GossipMessage::SyncState`, as far as the index is concerned. -/
structure SyncState where
  origin : Str
  report : RootReport
  gcWatermark : GcWatermark

/-- Some nodes, and what they have announced. -/
structure Cluster (ι : Type) where
  node : ι → ClusterNode
  sent : List SyncState

/-- What can happen in a cluster. -/
inductive ClusterAct (ι : Type) where
  /-- A node records what it has found at a path. -/
  | observe (i : ι) (live : Entry)
  /-- A node finds that a path is gone. -/
  | vanish (i : ι) (path : Str)
  /-- What lies below a path is buried. -/
  | bury (i : ι) (path : Str)
  /-- A node pulls the entry another one has at a path. -/
  | pull (i j : ι) (path : Str)
  | announce (i : ι)
  /-- The watermark of an announcement arrives. -/
  | learn (i : ι) (message : Nat)
  /-- The report of an announcement arrives. -/
  | record (i : ι) (message : Nat)
  /-- A node looks whether it can prune. -/
  | gc (i : ι)

/-- `StateSnapshot::from_state`, with trees that match the index. -/
def Replica.report [Blake3] (r : Replica) : RootReport :=
  ⟨(deriveTree r.entries).rootHash, (deriveLiveTree r.entries).rootHash, r.lamport⟩

namespace Cluster

variable {ι : Type}

section Next

variable [DecidableEq ι]

/-- A node does something to its replica. -/
def update (s : Cluster ι) (i : ι) (r : Replica) : Cluster ι :=
  { s with node := Function.update s.node i { s.node i with replica := r } }

variable [Blake3]

/-- What an action leads to, if it can happen.  `group i` is the group as node `i` knows it. -/
def next (group : ι → GroupState) (s : Cluster ι) : ClusterAct ι → Option (Cluster ι)
  | .observe i live =>
    some (s.update i (Replica.updateEntry live.path live ((s.node i).replica, [])).1)
  | .vanish i path =>
    some (s.update i (Replica.tombstoneDescendants path ((s.node i).replica, [])).1)
  | .bury i path =>
    some (s.update i (Replica.tombstoneChildDescendants path ((s.node i).replica, [])).1)
  | .pull i j path =>
    (s.node j).replica.entries[path]?.bind fun remote ↦
      if (s.node i).replica.shouldAcceptRemote remote then
        some (s.update i ((s.node i).replica.receive remote))
      else none
  | .announce i =>
    let r := (s.node i).replica
    some { s with sent := s.sent ++ [⟨r.origin, r.report, r.gcWatermark⟩] }
  | .learn i message => s.sent[message]?.bind fun m ↦
    if m.origin = (s.node i).replica.origin ∨ m.gcWatermark.isEmpty then none
    else some (s.update i ((s.node i).replica.mergeGcWatermark m.gcWatermark).1)
  | .record i message => s.sent[message]?.bind fun m ↦
    if m.origin = (s.node i).replica.origin then none
    else
      let reports := (s.node i).reports.update m.origin m.report
      some { s with node := Function.update s.node i { s.node i with reports } }
  | .gc i =>
    let n := s.node i
    if n.reports.allActiveMatch n.replica.report.stateRoot (group i).activePeerIds then
      some (s.update i n.replica.gcTombstonesForConvergedRoot.1)
    else none

/-- The nodes have different origins and know each other as active. -/
structure AllActive (group : ι → GroupState) (s : Cluster ι) : Prop where
  injective : Function.Injective fun i ↦ (s.node i).replica.origin
  mem_activePeerIds : ∀ i j, i ≠ j → (s.node j).replica.origin ∈ (group i).activePeerIds

/-- Nobody knows anything. -/
structure Blank (s : Cluster ι) : Prop where
  entries_eq : ∀ i, (s.node i).replica.entries = ∅
  gcWatermark_eq : ∀ i, (s.node i).replica.gcWatermark = ∅
  reports_eq : ∀ i, (s.node i).reports = ∅
  sent_eq : s.sent = []

/-- The indexes are among those given. -/
def Within (occurs : Set Index) (s : Cluster ι) : Prop := ∀ i, (s.node i).replica.entries ∈ occurs

/-- The runs of the nodes in which no indexes come up but those given. -/
def machine (group : ι → GroupState) (occurs : Set Index) : Machine (Cluster ι) :=
  .ofActions (fun s ↦ AllActive group s ∧ Blank s ∧ Within occurs s) (next group) fun s act ↦
    ∀ s' ∈ next group s act, Within occurs s'

end Next

/-! ## What goes up -/

/-- The versions at the paths. -/
def cell (s : Cluster ι) (i : ι) (path : Str) : Option Version :=
  (s.node i).replica.entries[path]?.map Entry.version

/-- What the nodes have had at the paths. -/
abbrev Had (ι : Type) := ι → Str → Set Version

variable {had had' : Had ι} {s s' s'' : Cluster ι} {i j : ι} {path : Str} {v : Version}
  {watermark : GcWatermark} {entries : Index}

/-- The clocks do not go back and nothing is forgotten; a version that comes up is one
that its node has issued since. -/
structure Later (had : Had ι) (s : Cluster ι) (had' : Had ι) (s' : Cluster ι) : Prop where
  had_subset : ∀ i path, had i path ⊆ had' i path
  origin_eq : ∀ i, (s'.node i).replica.origin = (s.node i).replica.origin
  lamport_le : ∀ i, (s.node i).replica.lamport ≤ (s'.node i).replica.lamport
  occurs : ∀ i path v, s'.cell i path = some v → (∃ j, s.cell j path = some v) ∨
    ∃ j, v.origin = (s.node j).replica.origin ∧ (s.node j).replica.lamport < v.lamport

/-- What is at or under the clock value of its origin is stable, wherever it is. -/
def StableUpTo (had : Had ι) (s : Cluster ι) (origin : Str) (lamport : Nat) : Prop :=
  ∀ i path v, s.cell i path = some v → v.origin = origin → v.lamport ≤ lamport → Stable had path v

/-- What the watermark covers is stable, and it is not ahead of the clocks. -/
def Justified (had : Had ι) (s : Cluster ι) (watermark : GcWatermark) : Prop :=
  ∀ (origin : Str) (lamport : Nat), watermark[origin]? = some lamport →
    StableUpTo had s origin lamport ∧
      ∃ i, (s.node i).replica.origin = origin ∧ lamport ≤ (s.node i).replica.lamport

/-- The node has had the index: all that is in it, and whatever the node had issued by
then is in it, or something later, unless that was stable. -/
structure Showed (had : Had ι) (s : Cluster ι) (i : ι) (entries : Index) : Prop where
  had_of_mem : ∀ (path : Str) (e : Entry), entries[path]? = some e → e.version ∈ had i path
  lamport_le : ∀ (path : Str) (e : Entry), entries[path]? = some e →
    e.version.origin = (s.node i).replica.origin → e.version.lamport ≤ (s.node i).replica.lamport
  issued : ∀ (path : Str) (e : Entry), entries[path]? = some e →
    e.version.origin = (s.node i).replica.origin →
    ∀ j path' v, s.cell j path' = some v → v.origin = (s.node i).replica.origin →
      v.lamport ≤ e.version.lamport →
      (∃ e', entries[path']? = some e' ∧ v ≤ e'.version) ∨ Stable had path' v

theorem cell_eq_some_iff : s.cell i path = some v ↔
    ∃ e, (s.node i).replica.entries[path]? = some e ∧ e.version = v := Option.map_eq_some_iff

theorem Later.trans {had'' : Had ι} (h : Later had s had' s') (h' : Later had' s' had'' s'') :
    Later had s had'' s'' where
  had_subset i path := (h.had_subset i path).trans (h'.had_subset i path)
  origin_eq i := (h'.origin_eq i).trans (h.origin_eq i)
  lamport_le i := (h.lamport_le i).trans (h'.lamport_le i)
  occurs i path v hv := by
    rcases h'.occurs i path v hv with ⟨j, hj⟩ | ⟨j, ho, hlt⟩
    · exact h.occurs j path v hj
    · exact .inr ⟨j, ho.trans (h.origin_eq j), (h.lamport_le j).trans_lt hlt⟩

theorem Later.rfl' (had : Had ι) (s : Cluster ι) : Later had s had s where
  had_subset _ _ := subset_rfl
  origin_eq _ := rfl
  lamport_le _ := le_rfl
  occurs i _ _ hv := .inl ⟨i, hv⟩

/-- What is at or under the clock of its origin did not come up since. -/
theorem Later.occurs_of_le (h : Later had s had' s')
    (hinj : Function.Injective fun i ↦ (s.node i).replica.origin)
    (hv : s'.cell i path = some v) (ho : v.origin = (s.node j).replica.origin)
    (hle : v.lamport ≤ (s.node j).replica.lamport) : ∃ i, s.cell i path = some v := by
  refine (h.occurs i path v hv).resolve_right fun ⟨j', ho', hlt⟩ ↦ ?_
  obtain rfl := hinj (ho.symm.trans ho')
  exact hle.not_gt hlt

theorem Justified.stable_of_isVersionGced {r : Replica} (h : Justified had s r.gcWatermark)
    (hv : s.cell i path = some v) (hgced : r.isVersionGced v) : Stable had path v := by
  rw [Replica.isVersionGced, Option.any_eq_true] at hgced
  obtain ⟨lamport, hl, hle⟩ := hgced
  exact (h _ lamport hl).1 i path v hv rfl (of_decide_eq_true hle)

theorem Justified.later (h : Justified had s watermark) (hl : Later had s had' s')
    (hinj : Function.Injective fun i ↦ (s.node i).replica.origin) :
    Justified had' s' watermark := by
  intro origin lamport hlamport
  obtain ⟨hstable, j, rfl, hle⟩ := h origin lamport hlamport
  refine ⟨fun i path v hv ho hvl ↦ ?_, j, hl.origin_eq j, hle.trans (hl.lamport_le j)⟩
  obtain ⟨i', hi'⟩ := hl.occurs_of_le hinj hv ho (hvl.trans hle)
  exact (hstable i' path v hi' ho hvl).mono hl.had_subset

theorem Showed.later (h : Showed had s i entries) (hl : Later had s had' s')
    (hinj : Function.Injective fun i ↦ (s.node i).replica.origin) :
    Showed had' s' i entries where
  had_of_mem path e he := hl.had_subset i path (h.had_of_mem path e he)
  lamport_le path e he ho := by
    rw [hl.origin_eq] at ho
    exact (h.lamport_le path e he ho).trans (hl.lamport_le i)
  issued path e he ho j path' v hv hvo hle := by
    rw [hl.origin_eq] at ho hvo
    obtain ⟨j', hj'⟩ := hl.occurs_of_le hinj hv hvo (hle.trans (h.lamport_le path e he ho))
    exact (h.issued path e he ho j' path' v hj' hvo hle).imp id (·.mono hl.had_subset)

/-! ## The invariant -/

section Invariant

variable [Blake3] {group : ι → GroupState} {occurs : Set Index}

/-- What every reachable state meets.  A report is of an index that its sender has had. -/
structure Coherent (group : ι → GroupState) (occurs : Set Index) (had : Had ι)
    (s : Cluster ι) : Prop extends AllActive group s where
  kept : Kept had s.cell
  atOwnPaths : ∀ i, Replica.AtOwnPaths (s.node i).replica.entries
  lamport_le : ∀ i path, ∀ v ∈ had i path, v.lamport ≤ (s.node i).replica.lamport
  issued : ∀ i path v, s.cell i path = some v →
    ∃ j, v.origin = (s.node j).replica.origin ∧ ∃ w ∈ had j path, v ≤ w
  justified : ∀ i, Justified had s (s.node i).replica.gcWatermark
  sent : ∀ m ∈ s.sent, Justified had s m.gcWatermark ∧
    ∃ j, m.origin = (s.node j).replica.origin ∧ ∃ entries ∈ occurs,
      m.report.stateRoot = (deriveTree entries).rootHash ∧ Showed had s j entries
  reports : ∀ i origin report, (s.node i).reports[origin]? = some report →
    ∃ m ∈ s.sent, m.origin = origin ∧ m.report = report

/-- The state is coherent, for a history that goes on from the one given. -/
def CoherentAfter (group : ι → GroupState) (occurs : Set Index) (had : Had ι) (s s' : Cluster ι) :
    Prop :=
  ∃ had', Later had s had' s' ∧ Coherent group occurs had' s'

theorem CoherentAfter.trans
    (h : CoherentAfter group occurs had s s')
    (h' : ∀ had', Coherent group occurs had' s' → CoherentAfter group occurs had' s' s'') :
    CoherentAfter group occurs had s s'' := by
  obtain ⟨had', hl, hs'⟩ := h
  obtain ⟨had'', hl', hs''⟩ := h' had' hs'
  exact ⟨had'', hl.trans hl', hs''⟩

theorem Coherent.after (h : Coherent group occurs had s) : CoherentAfter group occurs had s s :=
  ⟨had, .rfl' had s, h⟩

/-- A node has had its index, and has issued what is in it. -/
theorem Coherent.showed (h : Coherent group occurs had s) (i : ι) :
    Showed had s i (s.node i).replica.entries where
  had_of_mem path e he := (h.kept.isGreatest i path _ (cell_eq_some_iff.mpr ⟨e, he, rfl⟩)).1
  lamport_le path e he _ :=
    h.lamport_le i path _ (h.kept.isGreatest i path _ (cell_eq_some_iff.mpr ⟨e, he, rfl⟩)).1
  issued path e he ho j path' v hv hvo hle := by
    obtain ⟨i', hi', w, hw, hvw⟩ := h.issued j path' v hv
    obtain rfl := h.injective (hvo.symm.trans hi')
    refine (h.kept.le_or_stable hw hvw).imp (fun ⟨u, hu, hvu⟩ ↦ ?_) id
    obtain ⟨e', he', rfl⟩ := cell_eq_some_iff.mp hu
    exact ⟨e', he', hvu⟩

/-- The index of a node was shown by every node, if all last reports are its root. -/
theorem Coherent.showed_of_allActiveMatch (h : Coherent group occurs had s)
    (hroots : Set.InjOn (fun entries ↦ (deriveTree entries).rootHash) occurs)
    (hi : (s.node i).replica.entries ∈ occurs)
    (hmatch : (s.node i).reports.allActiveMatch (s.node i).replica.report.stateRoot
      (group i).activePeerIds) (j : ι) : Showed had s j (s.node i).replica.entries := by
  by_cases hij : i = j
  · exact hij ▸ h.showed i
  rw [RootReports.allActiveMatch, List.all_eq_true] at hmatch
  have hj := hmatch _ (h.mem_activePeerIds i j hij)
  rw [Option.any_eq_true] at hj
  obtain ⟨report, hreport, hroot⟩ := hj
  obtain ⟨m, hm, ho, rfl⟩ := h.reports i _ report hreport
  obtain ⟨-, j', hj', entries, hmem, hstate, hshowed⟩ := h.sent m hm
  obtain rfl := h.injective (ho.symm.trans hj')
  have heq : (deriveTree entries).rootHash = (deriveTree (s.node i).replica.entries).rootHash :=
    hstate.symm.trans (eq_of_beq hroot)
  exact hroots hmem hi heq ▸ hshowed

/-- What was issued up to a tombstone of an index that every node has shown is stable. -/
theorem Coherent.justified_tombstoneWatermark (h : Coherent group occurs had s)
    (hshowed : ∀ j, Showed had s j (s.node i).replica.entries) :
    Justified had s (s.node i).replica.tombstoneWatermark := by
  intro origin lamport hl
  obtain ⟨path, e, he, -, hv⟩ := Replica.of_getElem?_tombstoneWatermark hl
  obtain ⟨j, ho, -⟩ := h.issued i path _ (cell_eq_some_iff.mpr ⟨e, he, rfl⟩)
  rw [hv] at ho
  have hej : e.version.origin = (s.node j).replica.origin := by rw [hv]; exact ho
  have hel : e.version.lamport = lamport := by rw [hv]
  refine ⟨fun i' path' v hcell hvo hle ↦ ?_, j, ho.symm, ?_⟩
  · rcases (hshowed j).issued path e he hej i' path' v hcell (hvo.trans ho) (hle.trans hel.ge) with
      ⟨e', he', hve⟩ | hstable
    · exact fun k ↦ ⟨_, (hshowed k).had_of_mem path' e' he', hve⟩
    · exact hstable
  · exact hel ▸ (hshowed j).lamport_le path e he hej

/-- Announcements and reports leave the replicas alone. -/
theorem Coherent.of_replica_eq (h : Coherent group occurs had s)
    (hreplica : ∀ i, (s'.node i).replica = (s.node i).replica)
    (hsent : ∀ m ∈ s'.sent, m ∈ s.sent ∨ ∃ i, (s.node i).replica.entries ∈ occurs ∧
      m = ⟨(s.node i).replica.origin, (s.node i).replica.report, (s.node i).replica.gcWatermark⟩)
    (hkeep : s.sent ⊆ s'.sent)
    (hreports : ∀ i origin report, (s'.node i).reports[origin]? = some report →
      (s.node i).reports[origin]? = some report ∨
        ∃ m ∈ s.sent, m.origin = origin ∧ m.report = report) :
    CoherentAfter group occurs had s s' := by
  have hcell : s'.cell = s.cell := by
    funext i path
    rw [cell, cell, hreplica]
  have hl : Later had s had s' := by
    refine ⟨fun _ _ ↦ subset_rfl, fun i ↦ ?_, fun i ↦ ?_, fun i path v hv ↦ .inl ⟨i, ?_⟩⟩
    · rw [hreplica]
    · rw [hreplica]
    · rwa [hcell] at hv
  refine ⟨had, hl, ?_⟩
  constructor
  · constructor
    · simpa only [hreplica] using h.injective
    · simpa only [hreplica] using h.mem_activePeerIds
  · exact hcell ▸ h.kept
  · simpa only [hreplica] using h.atOwnPaths
  · simpa only [hreplica] using h.lamport_le
  · simpa only [hreplica, hcell] using h.issued
  · intro i
    rw [hreplica]
    exact (h.justified i).later hl h.injective
  · intro m hm
    rcases hsent m hm with hold | ⟨i, hi, rfl⟩
    · obtain ⟨hw, j, ho, entries, hmem, hroot, hshowed⟩ := h.sent m hold
      exact ⟨hw.later hl h.injective, j, ho.trans (hl.origin_eq j).symm, entries, hmem, hroot,
        hshowed.later hl h.injective⟩
    · exact ⟨(h.justified i).later hl h.injective, i, (hl.origin_eq i).symm, _, hi, rfl,
        (h.showed i).later hl h.injective⟩
  · intro i origin report hr
    rcases hreports i origin report hr with hold | ⟨m, hm, ho, hrep⟩
    · obtain ⟨m, hm, ho, hrep⟩ := h.reports i origin report hold
      exact ⟨m, hkeep hm, ho, hrep⟩
    · exact ⟨m, hkeep hm, ho, hrep⟩

end Invariant

section Update

variable [DecidableEq ι] {r : Replica}

@[simp]
theorem update_node_self : ((s.update i r).node i).replica = r := by
  simp [update]

@[simp]
theorem update_node_of_ne (h : j ≠ i) : (s.update i r).node j = s.node j :=
  Function.update_of_ne h ..

theorem update_reports (s : Cluster ι) (i j : ι) (r : Replica) :
    ((s.update i r).node j).reports = (s.node j).reports := by
  by_cases hj : j = i
  · subst hj
    simp [update]
  · rw [update_node_of_ne hj]

theorem update_update (s : Cluster ι) (i : ι) (r r' : Replica) :
    (s.update i r).update i r' = s.update i r' := by
  simp [update]

theorem update_self (s : Cluster ι) (i : ι) : s.update i (s.node i).replica = s := by
  rw [update]
  simp

/-- A property of all replicas, after one of them was replaced. -/
theorem forall_update {P : ι → Replica → Prop} (hself : P i r)
    (hother : ∀ j, j ≠ i → P j (s.node j).replica) (j : ι) :
    P j ((s.update i r).node j).replica := by
  by_cases hj : j = i
  · subst hj
    rwa [update_node_self]
  · rw [update_node_of_ne hj]
    exact hother j hj

end Update

/-! ## One node moves -/

section Moves

variable [Blake3] [DecidableEq ι] {group : ι → GroupState} {occurs : Set Index} {r : Replica}

/-- The state stays coherent if a node's replica does. -/
theorem Coherent.update (h : Coherent group occurs had s) (hl : Later had s had' (s.update i r))
    (hkept : Kept had' (s.update i r).cell) (hpaths : Replica.AtOwnPaths r.entries)
    (hlamport : ∀ path, ∀ v ∈ had' i path, v.lamport ≤ r.lamport)
    (hhad : ∀ j, j ≠ i → ∀ path, had' j path = had j path)
    (hissued : ∀ path e, r.entries[path]? = some e →
      ∃ j, e.version.origin = (s.node j).replica.origin ∧ ∃ w ∈ had' j path, e.version ≤ w)
    (hjustified : Justified had' (s.update i r) r.gcWatermark) :
    Coherent group occurs had' (s.update i r) where
  injective j j' hj := h.injective (by simpa only [hl.origin_eq] using hj)
  mem_activePeerIds j j' hj := by
    rw [hl.origin_eq]
    exact h.mem_activePeerIds j j' hj
  kept := hkept
  atOwnPaths j :=
    forall_update (P := fun _ r ↦ Replica.AtOwnPaths r.entries) hpaths (fun j _ ↦ h.atOwnPaths j) j
  lamport_le j :=
    forall_update (P := fun j r ↦ ∀ path, ∀ v ∈ had' j path, v.lamport ≤ r.lamport) hlamport
      (fun j hj path v hv ↦ h.lamport_le j path v (hhad j hj path ▸ hv)) j
  issued j path v hv := by
    obtain ⟨e, he, rfl⟩ := cell_eq_some_iff.mp hv
    simp only [hl.origin_eq]
    refine forall_update (P := fun _ r ↦ r.entries[path]? = some e → ∃ j,
      e.version.origin = (s.node j).replica.origin ∧ ∃ w ∈ had' j path, e.version ≤ w)
      (hissued path e) (fun j _ he ↦ ?_) j he
    obtain ⟨j', ho, w, hw, hle⟩ := h.issued j path _ (cell_eq_some_iff.mpr ⟨e, he, rfl⟩)
    exact ⟨j', ho, w, hl.had_subset j' path hw, hle⟩
  justified j :=
    forall_update (P := fun _ r' ↦ Justified had' (s.update i r) r'.gcWatermark) hjustified
      (fun j _ ↦ (h.justified j).later hl h.injective) j
  sent m hm := by
    obtain ⟨hw, j, ho, entries, hmem, hroot, hshowed⟩ := h.sent m hm
    exact ⟨hw.later hl h.injective, j, ho.trans (hl.origin_eq j).symm, entries, hmem, hroot,
      hshowed.later hl h.injective⟩
  reports j origin report hr := by
    rw [update_reports] at hr
    exact h.reports j origin report hr

/-- A node puts an entry into its index that is above all that it has had there. -/
theorem Coherent.put (h : Coherent group occurs had s) {e : Entry}
    (ho : r.origin = (s.node i).replica.origin)
    (hw : r.gcWatermark = (s.node i).replica.gcWatermark)
    (hentries : r.entries = (s.node i).replica.entries.insert e.path e)
    (hle : (s.node i).replica.lamport ≤ r.lamport) (hel : e.version.lamport ≤ r.lamport)
    (hnew : e.version ∈ upperBounds (had i e.path))
    (hfrom : (∃ j, s.cell j e.path = some e.version) ∨
      e.version.origin = (s.node i).replica.origin ∧
        (s.node i).replica.lamport < e.version.lamport) :
    CoherentAfter group occurs had s (s.update i r) := by
  have hlook : ∀ path, r.entries[path]? =
      if e.path = path then some e else (s.node i).replica.entries[path]? := fun path ↦ by
    rw [hentries, OrdMap.getElem?_insert_eq]
  have hself : (s.update i r).cell i e.path = some e.version := by
    rw [cell, update_node_self, hlook, if_pos rfl]
    rfl
  have hother : ∀ j path, ¬ (j = i ∧ path = e.path) →
      (s.update i r).cell j path = s.cell j path := by
    intro j path hne
    by_cases hj : j = i
    · subst hj
      rw [cell, update_node_self, hlook, if_neg fun hp ↦ hne ⟨rfl, hp.symm⟩]
      rfl
    · rw [cell, update_node_of_ne hj]
      rfl
  have hl : Later had s (putHad had i e.path e.version) (s.update i r) := by
    refine ⟨subset_putHad had i e.path e.version, fun j ↦ ?_, fun j ↦ ?_, fun j path v hv ↦ ?_⟩
    · exact forall_update (P := fun j r ↦ r.origin = (s.node j).replica.origin) ho
        (fun _ _ ↦ rfl) j
    · exact forall_update (P := fun j r ↦ (s.node j).replica.lamport ≤ r.lamport) hle
        (fun _ _ ↦ le_rfl) j
    · by_cases hjp : j = i ∧ path = e.path
      · obtain ⟨rfl, rfl⟩ := hjp
        obtain rfl := Option.some.inj (hself.symm.trans hv)
        exact hfrom.imp id fun ⟨ho, hlt⟩ ↦ ⟨j, ho, hlt⟩
      · exact .inl ⟨j, hother j path hjp ▸ hv⟩
  refine ⟨_, hl, h.update hl (h.kept.put hnew hself hother) (fun path e' he' ↦ ?_)
    (fun path v hv ↦ ?_) (fun j hj path ↦ ?_) (fun path e' he' ↦ ?_) ?_⟩
  · rw [hlook] at he'
    split at he'
    · next hp => exact Option.some.inj he' ▸ hp
    · exact h.atOwnPaths i path e' he'
  · rcases hv with hv | ⟨-, -, rfl⟩
    · exact (h.lamport_le i path v hv).trans hle
    · exact hel
  · ext w
    exact ⟨fun hw ↦ hw.resolve_right fun ⟨hj', _⟩ ↦ hj hj', .inl⟩
  · have hold : ∀ j v, s.cell j path = some v → ∃ j, v.origin = (s.node j).replica.origin ∧
        ∃ w ∈ putHad had i e.path e.version j path, v ≤ w := by
      intro j v hv
      obtain ⟨j', ho', w, hw', hvw⟩ := h.issued j path v hv
      exact ⟨j', ho', w, .inl hw', hvw⟩
    rw [hlook] at he'
    split at he'
    · next hp =>
      obtain rfl := Option.some.inj he'
      subst hp
      rcases hfrom with ⟨j, hj⟩ | ⟨ho', -⟩
      · exact hold j _ hj
      · exact ⟨i, ho', _, mem_putHad_self, le_rfl⟩
    · exact hold i _ (cell_eq_some_iff.mpr ⟨e', he', rfl⟩)
  · rw [hw]
    exact (h.justified i).later hl h.injective

/-- A version that a node issues is above all that the node has had. -/
theorem Coherent.stamped (h : Coherent group occurs had s) {st st' : Recorded}
    (hr : (s.node i).replica = st.1) (hst : Replica.Stamped st st') :
    CoherentAfter group occurs had s (s.update i st'.1) := by
  obtain ⟨path, make, hpath, hversion⟩ := hst
  obtain rfl := hpath st.1.nextVersion.1
  have hv : (make st.1.nextVersion.1).version = ⟨st.1.lamport + 1, st.1.origin⟩ := hversion _
  refine h.put (e := make st.1.nextVersion.1) ?_ ?_ ?_ ?_ ?_ (fun v hvh ↦ ?_) (.inr ⟨?_, ?_⟩)
  · rw [hr]
    rfl
  · rw [hr]
    rfl
  · rw [hr]
    rfl
  · rw [hr]
    exact Nat.le_succ _
  · rw [hv]
    exact le_rfl
  · have hle := h.lamport_le i _ v hvh
    rw [hr] at hle
    rw [hv]
    exact (Version.lt_of_lamport_lt (Nat.lt_succ_of_le hle)).le
  · rw [hv, hr]
  · rw [hv, hr]
    exact Nat.lt_succ_self _

theorem Coherent.stamps (h : Coherent group occurs had s) {st st' : Recorded}
    (hr : (s.node i).replica = st.1) (hst : Replica.Stamps st st') :
    CoherentAfter group occurs had s (s.update i st'.1) := by
  induction hst with
  | refl =>
    rw [← hr, update_self]
    exact h.after
  | tail _ hstep ih =>
    refine ih.trans fun had' h' ↦ ?_
    have hlast := h'.stamped (update_node_self ..) hstep
    rwa [update_update] at hlast

/-- A node takes over an entry of another one. -/
theorem Coherent.receive (h : Coherent group occurs had s) {remote : Entry}
    (hj : (s.node j).replica.entries[path]? = some remote)
    (hacc : (s.node i).replica.shouldAcceptRemote remote) :
    CoherentAfter group occurs had s (s.update i ((s.node i).replica.receive remote)) := by
  obtain rfl := h.atOwnPaths j path remote hj
  have hcell : s.cell j remote.path = some remote.version :=
    cell_eq_some_iff.mpr ⟨remote, hj, rfl⟩
  refine h.put rfl rfl rfl (Nat.le_max_left _ _) (Nat.le_max_right _ _) ?_ (.inl ⟨j, hcell⟩)
  cases hi : (s.node i).replica.entries[remote.path]? with
  | none => exact h.kept.mem_upperBounds_of_none (by rw [cell, hi]; rfl) hcell
  | some old =>
    refine h.kept.mem_upperBounds_of_lt (cell_eq_some_iff.mpr ⟨old, hi, rfl⟩) ?_
    exact Replica.lt_of_shouldAcceptRemote hacc hi

/-- What a justified watermark covers can be pruned. -/
theorem Coherent.collect (h : Coherent group occurs had s) (hw : Justified had s watermark) :
    CoherentAfter group occurs had s
      (s.update i ((s.node i).replica.mergeGcWatermark watermark).1) := by
  have hentries := (s.node i).replica.getElem?_mergeGcWatermark watermark
  have hticks := (s.node i).replica.ticks_mergeGcWatermark watermark
  have hjustified : Justified had s
      ((s.node i).replica.mergeGcWatermark watermark).1.gcWatermark := by
    intro origin lamport hl
    rw [Replica.gcWatermark_mergeGcWatermark] at hl
    exact (Replica.of_getElem?_mergeWatermark hl).elim (h.justified i origin lamport)
      (hw origin lamport)
  generalize ((s.node i).replica.mergeGcWatermark watermark).1 = r at *
  have hcell : ∀ j path, (s.update i r).cell j path = s.cell j path ∨
      (s.update i r).cell j path = none ∧ ∀ v, s.cell j path = some v → Stable had path v := by
    intro j path
    by_cases hj : j = i
    · subst hj
      have hnew : (s.update j r).cell j path = r.entries[path]?.map Entry.version := by
        rw [cell, update_node_self]
      rw [hnew]
      cases hold : (s.node j).replica.entries[path]? with
      | none =>
        have hnone : r.entries[path]? = none :=
          Option.eq_none_iff_forall_ne_some.mpr fun e he ↦ by
            rw [((hentries path e).mp he).1] at hold
            cases hold
        exact .inl (by rw [hnone, cell, hold])
      | some e =>
        by_cases hc : e.kind = .tombstone ∧ r.isVersionGced e.version
        · have hnone : r.entries[path]? = none :=
            Option.eq_none_iff_forall_ne_some.mpr fun e' he' ↦ by
              obtain ⟨hold', hc'⟩ := (hentries path e').mp he'
              exact hc' (Option.some.inj (hold.symm.trans hold') ▸ hc)
          refine .inr ⟨by rw [hnone]; rfl, fun v hv ↦ ?_⟩
          obtain rfl := Option.some.inj ((congrArg (Option.map Entry.version) hold).symm.trans hv)
          exact hjustified.stable_of_isVersionGced hv hc.2
        · exact .inl (by rw [(hentries path e).mpr ⟨hold, hc⟩, cell, hold])
    · rw [cell, update_node_of_ne hj]
      exact .inl rfl
  have hl : Later had s had (s.update i r) := by
    refine ⟨fun _ _ ↦ subset_rfl, fun j ↦ ?_, fun j ↦ ?_, fun j path v hv ↦ ?_⟩
    · exact forall_update (P := fun j r ↦ r.origin = (s.node j).replica.origin) hticks.origin_eq
        (fun _ _ ↦ rfl) j
    · exact forall_update (P := fun j r ↦ (s.node j).replica.lamport ≤ r.lamport)
        hticks.lamport_le (fun _ _ ↦ le_rfl) j
    · rcases hcell j path with heq | ⟨hnone, -⟩
      · exact .inl ⟨j, heq ▸ hv⟩
      · rw [hnone] at hv
        cases hv
  refine ⟨had, hl, h.update hl (h.kept.clear hcell) (fun path e he ↦ ?_) (fun path v hv ↦ ?_)
    (fun _ _ _ ↦ rfl) (fun path e he ↦ ?_) (hjustified.later hl h.injective)⟩
  · exact h.atOwnPaths i path e ((hentries path e).mp he).1
  · exact (h.lamport_le i path v hv).trans hticks.lamport_le
  · exact h.issued i path _ (cell_eq_some_iff.mpr ⟨e, ((hentries path e).mp he).1, rfl⟩)

/-- Every action leads from a coherent state to a coherent one. -/
theorem Coherent.next (h : Coherent group occurs had s)
    (hroots : Set.InjOn (fun entries ↦ (deriveTree entries).rootHash) occurs)
    (hwithin : Within occurs s) {act : ClusterAct ι} (hact : next group s act = some s') :
    CoherentAfter group occurs had s s' := by
  cases act with
  | observe i live =>
    obtain rfl := Option.some.inj hact
    exact h.stamps rfl (Replica.stamps_updateEntry rfl _)
  | vanish i path =>
    obtain rfl := Option.some.inj hact
    exact h.stamps rfl (Replica.stamps_tombstoneDescendants path _)
  | bury i path =>
    obtain rfl := Option.some.inj hact
    exact h.stamps rfl (Replica.stamps_tombstoneChildDescendants path _)
  | pull i j path =>
    obtain ⟨remote, hremote, hact⟩ := Option.bind_eq_some_iff.mp hact
    split at hact
    · next hacc =>
      obtain rfl := Option.some.inj hact
      exact h.receive hremote hacc
    · cases hact
  | announce i =>
    obtain rfl := Option.some.inj hact
    refine h.of_replica_eq (fun _ ↦ rfl) (fun m hm ↦ ?_) (List.subset_append_left _ _)
      fun _ _ _ hr ↦ .inl hr
    exact (List.mem_append.mp hm).imp id fun hm ↦ ⟨i, hwithin i, List.mem_singleton.mp hm⟩
  | learn i message =>
    obtain ⟨m, hm, hact⟩ := Option.bind_eq_some_iff.mp hact
    split at hact
    · cases hact
    · obtain rfl := Option.some.inj hact
      exact h.collect (h.sent m (List.mem_of_getElem? hm)).1
  | record i message =>
    obtain ⟨m, hm, hact⟩ := Option.bind_eq_some_iff.mp hact
    split at hact
    · cases hact
    · obtain rfl := Option.some.inj hact
      refine h.of_replica_eq (fun j ↦ ?_) (fun _ ↦ .inl) (List.Subset.refl _)
        fun j origin report hr ↦ ?_
      · dsimp only
        rw [Function.update_apply]
        split
        · next hj => rw [hj]
        · rfl
      · dsimp only at hr
        rw [Function.update_apply] at hr
        split at hr
        · next hj =>
          subst hj
          by_cases ho : m.origin = origin
          · subst ho
            dsimp only at hr
            rw [RootReports.getElem?_update_self] at hr
            split at hr
            · exact .inr ⟨m, List.mem_of_getElem? hm, rfl, Option.some.inj hr⟩
            · exact .inl hr
          · exact .inl (RootReports.getElem?_update_of_ne ho ▸ hr)
        · exact .inl hr
  | gc i =>
    dsimp only [Cluster.next] at hact
    split at hact
    · next hmatch =>
      obtain rfl := Option.some.inj hact
      rw [Replica.gcTombstonesForConvergedRoot]
      dsimp only
      split
      · simpa only [update_self] using h.after
      · exact h.collect (h.justified_tombstoneWatermark
          (h.showed_of_allActiveMatch hroots (hwithin i) hmatch))
    · cases hact

end Moves

/-! ## Runs -/

section Runs

variable [Blake3] [DecidableEq ι] {group : ι → GroupState} {occurs : Set Index}

omit [DecidableEq ι] in
/-- Nobody has had anything at the start. -/
theorem Coherent.of_blank (hactive : AllActive group s) (hblank : Blank s) :
    Coherent group occurs (fun _ _ ↦ ∅) s where
  toAllActive := hactive
  kept := ⟨fun i path v hv ↦ by simp [cell, hblank.entries_eq] at hv, fun _ _ _ _ hv ↦ hv.elim⟩
  atOwnPaths i path e he := by simp [hblank.entries_eq] at he
  lamport_le _ _ _ hv := hv.elim
  issued i path v hv := by simp [cell, hblank.entries_eq] at hv
  justified i origin lamport hl := by simp [hblank.gcWatermark_eq] at hl
  sent m hm := by simp [hblank.sent_eq] at hm
  reports i origin report hr := by simp [hblank.reports_eq] at hr

theorem within_of_reachable (h : (machine group occurs).Reachable s) : Within occurs s := by
  refine h.invariant (I := Within occurs) ?_ ?_
  · exact fun s hs ↦ hs.2.2
  · rintro s s' - - ⟨act, hwithin, hact⟩
    exact hwithin s' hact

theorem coherent_of_reachable
    (hroots : Set.InjOn (fun entries ↦ (deriveTree entries).rootHash) occurs)
    (h : (machine group occurs).Reachable s) : ∃ had, Coherent group occurs had s := by
  refine h.invariant (I := fun s ↦ ∃ had, Coherent group occurs had s) ?_ ?_
  · exact fun s hs ↦ ⟨_, .of_blank hs.1 hs.2.1⟩
  · rintro s s' hs ⟨had, ih⟩ ⟨act, -, hact⟩
    obtain ⟨had', -, hs'⟩ := ih.next hroots (within_of_reachable hs) hact
    exact ⟨had', hs'⟩

theorem Coherent.steps (h : Coherent group occurs had s)
    (hroots : Set.InjOn (fun entries ↦ (deriveTree entries).rootHash) occurs)
    (hs : (machine group occurs).Reachable s)
    (hsteps : Relation.ReflTransGen (machine group occurs).step s s') :
    CoherentAfter group occurs had s s' := by
  induction hsteps with
  | refl => exact h.after
  | tail hbefore hstep ih =>
    obtain ⟨act, -, hact⟩ := hstep
    exact ih.trans fun had' h' ↦ h'.next hroots (within_of_reachable (hs.steps hbefore)) hact

/-- Once a node has pruned a tombstone, no node ever holds anything at the path that is
before it. -/
theorem never_before_pruned
    (hroots : Set.InjOn (fun entries ↦ (deriveTree entries).rootHash) occurs)
    (hs : (machine group occurs).Reachable s) (hstep : (machine group occurs).step s s')
    (hafter : Relation.ReflTransGen (machine group occurs).step s' s'') {t e : Entry}
    (ht : (s.node i).replica.entries[path]? = some t)
    (hpruned : (s'.node i).replica.entries[path]? = none)
    (he : (s''.node j).replica.entries[path]? = some e) : ¬ e.version < t.version := by
  obtain ⟨had, h⟩ := coherent_of_reachable hroots hs
  obtain ⟨had', hl, h'⟩ := h.steps hroots hs (.single hstep)
  obtain ⟨had'', hl', h''⟩ := h'.steps hroots (hs.step hstep) hafter
  have hmem : t.version ∈ had' i path :=
    hl.had_subset i path ((h.showed i).had_of_mem path t ht)
  have hstable := h'.kept.stable i path (by rw [cell, hpruned]; rfl) _ hmem
  exact (h''.kept.le_of_stable (hstable.mono hl'.had_subset)
    (cell_eq_some_iff.mpr ⟨e, he, rfl⟩)).not_gt

/-! ## A run -/

/-- Two nodes that know each other. -/
def pairGroup (i : Bool) : GroupState where
  localId := if i then lit "B" else lit "A"
  members := ExtTreeMap.ofList ([⟨lit "A", .active, 1⟩, ⟨lit "B", .active, 1⟩].map
    fun e : MemberEntry ↦ (e.id, e))

/-- The two nodes at the start. -/
def pair : Cluster Bool where
  node i := ⟨⟨if i then lit "B" else lit "A", 0, ∅, ∅, []⟩, ∅⟩
  sent := []

/-- A file that a node finds. -/
def found : Entry := ⟨lit "f", .file, none, none, 3, some 0o644, placeholderVersion⟩

/-- Its tombstone. -/
def lost : Entry := tombstoneEntry (lit "f") found ⟨2, lit "A"⟩

/-- The file when the other node finds it again. -/
def foundAgain : Entry := { found with version := ⟨3, lit "B"⟩ }

/-- The indexes of the run. -/
def pairIndexes : List Index :=
  [∅, indexOf [{ found with version := ⟨1, lit "A"⟩ }], indexOf [lost], indexOf [foundAgain]]

/-- The first node finds a file, which the second one pulls, and loses it again; the second
node announces its root.  Then the first one can prune. -/
def untilPruned : List (ClusterAct Bool) :=
  [.observe false found, .pull true false (lit "f"), .vanish false (lit "f"),
    .pull true false (lit "f"), .announce true, .record false 0]

instance (s : Cluster Bool) (act : ClusterAct Bool) :
    Decidable (∀ s' ∈ next pairGroup s act, Within {entries | entries ∈ pairIndexes} s') :=
  inferInstanceAs (Decidable (∀ s' ∈ next pairGroup s act, ∀ i,
    (s'.node i).replica.entries ∈ pairIndexes))

omit [Blake3] [DecidableEq ι] in
/-- The first node prunes, and the second one finds the file again. -/
theorem never_before_pruned_pair :
    let _ : Blake3 := Blake3.reference
    let M := machine pairGroup {entries | entries ∈ pairIndexes}
    ∃ s s' s'' : Cluster Bool, M.Reachable s ∧ M.step s s' ∧ M.step s' s'' ∧
      (s.node false).replica.entries[lit "f"]? = some lost ∧
      (s'.node false).replica.entries[lit "f"]? = none ∧
      (s''.node true).replica.entries[lit "f"]? = some foundAgain ∧
      ¬ foundAgain.version < lost.version := by
  intro _ M
  have hroots : Set.InjOn (fun entries ↦ (deriveTree entries).rootHash)
      {entries | entries ∈ pairIndexes} := by
    have hpairs : ∀ a ∈ pairIndexes, ∀ b ∈ pairIndexes,
        (deriveTree a).rootHash = (deriveTree b).rootHash → a = b := by decide +kernel
    exact fun a ha b hb hab ↦ hpairs a ha b hb hab
  have hrun : (Machine.runs (next pairGroup) (fun s act ↦ ∀ s' ∈ next pairGroup s act,
      Within {entries | entries ∈ pairIndexes} s') pair untilPruned).any fun s ↦
      (next pairGroup s (.gc false)).any fun s' ↦
        (next pairGroup s' (.observe true found)).any fun s'' ↦ decide (
          (∀ s' ∈ next pairGroup s (.gc false), Within {entries | entries ∈ pairIndexes} s') ∧
          (∀ s'' ∈ next pairGroup s' (.observe true found),
            Within {entries | entries ∈ pairIndexes} s'') ∧
          (s.node false).replica.entries[lit "f"]? = some lost ∧
          (s'.node false).replica.entries[lit "f"]? = none ∧
          (s''.node true).replica.entries[lit "f"]? = some foundAgain) := by
    decide +kernel
  simp only [Option.any_eq_true, decide_eq_true_eq] at hrun
  obtain ⟨s, hs, s', hs', s'', hs'', hin, hin', ht, hpruned, he⟩ := hrun
  have hstart : M.Reachable pair := by
    refine .init ⟨⟨by decide, by decide +kernel⟩, ⟨fun _ ↦ rfl, fun _ ↦ rfl, fun _ ↦ rfl, rfl⟩,
      fun i ↦ ?_⟩
    exact List.mem_cons_self
  have hreach : M.Reachable s := Machine.reachable_runs hstart hs
  have hstep : M.step s s' := ⟨.gc false, hin, hs'⟩
  have hstep' : M.step s' s'' := ⟨.observe true found, hin', hs''⟩
  exact ⟨s, s', s'', hreach, hstep, hstep', ht, hpruned, he,
    never_before_pruned hroots hreach hstep (.single hstep') ht hpruned he⟩

end Runs

end Cluster

end Lilsync
