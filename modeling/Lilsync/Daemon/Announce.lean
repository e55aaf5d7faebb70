import Lilsync.Daemon.Reports
import Lilsync.Endpoints
import Lilsync.Group.Views
import Lilsync.Lib.Machine
import Lilsync.Message

/-!
# Announcements that arrive

`handle_announcement`, and the daemon around it.  An announcement counts for nothing
unless the peer it comes from is the one it names, and an active member.  So what a
daemon believes of a member, that member has said itself: its last roots and where it
can be reached.  In particular no member can bring another one's tombstones to be
collected by speaking for a third.

The steps of the daemon are what its tasks do under a lock, in any order: other tasks
reconcile, merge ledgers and look for convergence between two steps of an
announcement.
-/

namespace Lilsync

open Std (ExtTreeMap)
open Lilsync.Lib Lilsync.Lib.Proc

/-! ## Handling an announcement -/

/-- `is_active_origin`. -/
def isActiveOrigin (group : GroupState) (origin : Str) : Bool :=
  (NodeId.fromText origin).any group.isActiveMember

/-- `message_gc_watermark`. -/
def messageGcWatermark : GossipMessage → Option GcWatermark
  | .syncState _ _ _ _ _ _ gcWatermark => some gcWatermark
  | _ => none

/-- `root_report_from_message`. -/
def rootReportFromMessage : GossipMessage → Option (Str × RootReport)
  | .syncState origin stateRoot liveRoot lamport _ _ _ =>
    some (origin, ⟨stateRoot, liveRoot, lamport⟩)
  | .filesystemChanged origin stateRoot liveRoot lamport _ =>
    some (origin, ⟨stateRoot, liveRoot, lamport⟩)
  | _ => none

/-- `record_root_report`. -/
def recordRootReport (reports : RootReports) (message : GossipMessage) : RootReports :=
  match rootReportFromMessage message with
  | some (origin, report) => reports.update origin report
  | none => reports

/-- How far the handling of an announcement has got. -/
inductive Stage where
  /-- It is not ignored. -/
  | accepted
  /-- The watermark is merged. -/
  | learned
  /-- The report is recorded. -/
  | recorded
deriving DecidableEq

/-- The announcement that the main loop is busy with. -/
structure Handling where
  peer : NodeId
  message : GossipMessage
  sourceIp : IpAddr
  stage : Stage

/-- A run of `maybe_gc_tombstones` between two of its locks. -/
inductive GcTask where
  /-- It has read the root and the members. -/
  | read (localRoot : Hash) (activePeerIds : List Str)
  /-- It has found that the reports agree. -/
  | converged (localRoot : Hash) (activePeerIds : List Str)

/-- What the tasks of the daemon share. -/
structure Daemon (W : Type) where
  node : Node W
  group : GroupState
  rootReports : RootReports
  addressBook : AddressBook
  localOrigin : Str
  handling : Option Handling
  gcTasks : List GcTask
  /-- Ghost: the announcements that were recorded, with the peers they came from. -/
  heard : List (NodeId × GossipMessage)
  /-- Ghost: those that were finished, with the addresses they came from. -/
  finished : List (NodeId × GossipMessage × IpAddr)
  /-- Ghost: the roots at which tombstones were collected, with the members that had agreed. -/
  collected : List (Hash × List Str)

/-- What can happen in a daemon. -/
inductive DaemonAct (W : Type) where
  /-- The main loop takes up an announcement from an authenticated peer. -/
  | hear (peer : NodeId) (message : GossipMessage) (sourceIp : IpAddr)
  /-- `merge_remote_gc_watermark`. -/
  | learn
  /-- `record_root_report`. -/
  | record
  /-- The rest of `handle_announcement`; `saved` says what saving the ledger returns. -/
  | finish (saved : IoResult Unit)
  /-- `maybe_gc_tombstones` reads the root and the members. -/
  | gcRead
  /-- It compares the reports. -/
  | gcCompare (task : Nat)
  /-- It collects, if the root is still the same. -/
  | gcCollect (task : Nat)
  /-- Another task does something to the folder. -/
  | work (node : Node W)
  /-- Another task does something to the ledger. -/
  | regroup (group : GroupState)

namespace Daemon

variable {W : Type}

section Next

variable [FileSystem W] [Blake3]

/-- The checks at the start of `handle_announcement`. -/
def admits (d : Daemon W) (peer : NodeId) (message : GossipMessage) : Bool :=
  message.origin == peer.toText && message.origin != d.localOrigin &&
    isActiveOrigin d.group message.origin

/-- What `handle_announcement` does with an announcement in the end.  If it then looks for
convergence, that is an action of its own. -/
def dispatch (d : Daemon W) (h : Handling) (saved : IoResult Unit) : Daemon W :=
  match h.message with
  | .endpoints _ listenPort advertised name =>
    let observed := formatEndpoint h.sourceIp listenPort
    { d with
      addressBook := (mergePeerEndpoints d.addressBook h.peer (some observed) advertised name).2 }
  | .peers _ members =>
    { d with group := (d.group.mergeMembers members saved).2 }
  | _ => d

/-- What an action leads to, if it can happen. -/
def next (d : Daemon W) : DaemonAct W → Option (Daemon W)
  | .hear peer message sourceIp =>
    if d.handling.isSome then none
    else if d.admits peer message then
      some { d with handling := some ⟨peer, message, sourceIp, .accepted⟩ }
    else some d
  | .learn => d.handling.bind fun h ↦
    if h.stage ≠ .accepted then none
    else
      let d := { d with handling := some { h with stage := .learned } }
      match messageGcWatermark h.message with
      | some incoming => some { d with node := (exec (mergeRemoteGcWatermark incoming) d.node).2 }
      | none => some d
  | .record => d.handling.bind fun h ↦
    if h.stage ≠ .learned then none
    else some { d with
      handling := some { h with stage := .recorded }
      rootReports := recordRootReport d.rootReports h.message
      heard := d.heard ++ [(h.peer, h.message)] }
  | .finish saved => d.handling.bind fun h ↦
    if h.stage ≠ .recorded then none
    else some ({ d with
      handling := none
      finished := d.finished ++ [(h.peer, h.message, h.sourceIp)] }.dispatch h saved)
  | .gcRead => some { d with
      gcTasks := d.gcTasks ++ [.read d.node.folder.tree.rootHash d.group.activePeerIds] }
  | .gcCompare task =>
    match d.gcTasks[task]? with
    | some (.read localRoot activePeerIds) =>
      if d.rootReports.allActiveMatch localRoot activePeerIds then
        some { d with gcTasks := d.gcTasks.set task (.converged localRoot activePeerIds) }
      else some { d with gcTasks := d.gcTasks.eraseIdx task }
    | _ => none
  | .gcCollect task =>
    match d.gcTasks[task]? with
    | some (.converged localRoot activePeerIds) =>
      let d := { d with gcTasks := d.gcTasks.eraseIdx task }
      if d.node.folder.tree.rootHash = localRoot then
        some { d with
          node := (exec maybeGcTombstones d.node).2
          collected := d.collected ++ [(localRoot, activePeerIds)] }
      else some d
    | _ => none
  | .work node => some { d with node }
  | .regroup group => some { d with group }

/-- A daemon that has just started: its address book was loaded, and it has heard nothing. -/
structure Started (d : Daemon W) : Prop where
  rootReports_eq : d.rootReports = ∅
  handling_eq : d.handling = none
  gcTasks_eq : d.gcTasks = []
  heard_eq : d.heard = []
  finished_eq : d.finished = []
  collected_eq : d.collected = []

/-- A daemon that starts with this address book, and goes on in any way. -/
def machine (loaded : AddressBook) : Machine (Daemon W) :=
  .ofActions (fun d ↦ d.Started ∧ d.addressBook = loaded) next fun _ _ ↦ True

end Next

/-! ## What it believes of its peers -/

/-- The reports are those of the announcements, of each peer the one with the greatest clock. -/
structure Believes (heard : List (NodeId × GossipMessage)) (reports : RootReports) : Prop where
  said : ∀ (origin : Str) (report : RootReport), reports[origin]? = some report →
    ∃ peer message, (peer, message) ∈ heard ∧ peer.toText = origin ∧
      rootReportFromMessage message = some (origin, report)
  kept : ∀ peer message origin report, (peer, message) ∈ heard →
    rootReportFromMessage message = some (origin, report) →
    ∃ last, reports[origin]? = some last ∧ report.lamport ≤ last.lamport

theorem origin_of_rootReportFromMessage {message : GossipMessage} {origin : Str}
    {report : RootReport} (h : rootReportFromMessage message = some (origin, report)) :
    message.origin = origin := by
  cases message <;> simp [rootReportFromMessage] at h <;> exact h.1

variable {heard : List (NodeId × GossipMessage)} {reports : RootReports} {peer : NodeId}
  {message : GossipMessage}

/-- Recording an announcement of the peer that it names keeps that. -/
theorem Believes.record (h : Believes heard reports) (horigin : message.origin = peer.toText) :
    Believes (heard ++ [(peer, message)]) (recordRootReport reports message) := by
  rw [recordRootReport]
  cases hreport : rootReportFromMessage message with
  | none =>
    refine ⟨fun o r hr ↦ ?_, fun p m o r hmem hr ↦ ?_⟩
    · obtain ⟨p, m, hmem, hp, hm⟩ := h.said o r hr
      exact ⟨p, m, List.mem_append_left _ hmem, hp, hm⟩
    · rcases List.mem_append.mp hmem with hmem | hmem
      · exact h.kept p m o r hmem hr
      · obtain ⟨rfl, rfl⟩ := Prod.mk.inj (List.mem_singleton.mp hmem)
        exact absurd (hreport.symm.trans hr) (by simp)
  | some said =>
    obtain ⟨origin, report⟩ := said
    have ho : peer.toText = origin :=
      horigin.symm.trans (origin_of_rootReportFromMessage hreport)
    refine ⟨fun o r hr ↦ ?_, fun p m o r hmem hr ↦ ?_⟩
    · by_cases hoo : origin = o
      · subst hoo
        rw [RootReports.getElem?_update_self] at hr
        split at hr
        · obtain rfl := Option.some.inj hr
          exact ⟨peer, message, List.mem_append_right _ (List.mem_singleton_self _), ho, hreport⟩
        · obtain ⟨p, m, hmem, hp, hm⟩ := h.said origin r hr
          exact ⟨p, m, List.mem_append_left _ hmem, hp, hm⟩
      · dsimp only at hr
        rw [RootReports.getElem?_update_of_ne hoo] at hr
        obtain ⟨p, m, hmem, hp, hm⟩ := h.said o r hr
        exact ⟨p, m, List.mem_append_left _ hmem, hp, hm⟩
    · have hold : (p, m) ∈ heard ∨ (o, r) = (origin, report) := by
        rcases List.mem_append.mp hmem with hmem | hmem
        · exact .inl hmem
        · obtain ⟨rfl, rfl⟩ := Prod.mk.inj (List.mem_singleton.mp hmem)
          exact .inr (Option.some.inj (hr.symm.trans hreport))
      dsimp only
      by_cases hoo : origin = o
      · subst hoo
        rw [RootReports.getElem?_update_self]
        have hlast : ∀ x, reports[origin]? = some x → r.lamport ≤ x.lamport ∨ r = report := by
          intro x hx
          refine hold.imp (fun hmem ↦ ?_) fun heq ↦ (Prod.mk.inj heq).2
          obtain ⟨last, hlast, hle⟩ := h.kept p m origin r hmem hr
          rw [hx] at hlast
          obtain rfl := Option.some.inj hlast
          exact hle
        cases hx : reports[origin]? with
        | none =>
          refine ⟨report, by simp, ?_⟩
          rcases hold with hmem | heq
          · obtain ⟨last, hlast, -⟩ := h.kept p m origin r hmem hr
            exact absurd (hx.symm.trans hlast) (by simp)
          · exact ((Prod.mk.inj heq).2 ▸ le_rfl)
        | some x =>
          by_cases hle : x.lamport ≤ report.lamport
          · refine ⟨report, by simp [hle], ?_⟩
            rcases hlast x hx with hrx | rfl
            · exact hrx.trans hle
            · exact le_rfl
          · refine ⟨x, by simp [hle], ?_⟩
            rcases hlast x hx with hrx | rfl
            · exact hrx
            · exact (not_le.mp hle).le
      · rw [RootReports.getElem?_update_of_ne hoo]
        refine h.kept p m o r (hold.resolve_right fun heq ↦ ?_) hr
        exact hoo (Prod.mk.inj heq).1.symm

/-- The members have said at some time, each of them for itself and last of all, that this is
their root. -/
def Agreed (heard : List (NodeId × GossipMessage)) (root : Hash) (ids : List Str) : Prop :=
  ∃ earlier, earlier <+: heard ∧ ∀ id ∈ ids, ∃ peer message report, peer.toText = id ∧
    (peer, message) ∈ earlier ∧ rootReportFromMessage message = some (id, report) ∧
    report.stateRoot = root ∧ ∀ message' report', (peer, message') ∈ earlier →
      rootReportFromMessage message' = some (id, report') → report'.lamport ≤ report.lamport

theorem Agreed.mono {heard' : List (NodeId × GossipMessage)} {root : Hash} {ids : List Str}
    (h : Agreed heard root ids) (hpre : heard <+: heard') : Agreed heard' root ids := by
  obtain ⟨earlier, hearlier, hids⟩ := h
  exact ⟨earlier, hearlier.trans hpre, hids⟩

/-- If the reports agree, so have the members. -/
theorem Believes.agreed (h : Believes heard reports) {root : Hash} {ids : List Str}
    (hmatch : reports.allActiveMatch root ids) : Agreed heard root ids := by
  refine ⟨heard, List.prefix_rfl, fun id hid ↦ ?_⟩
  obtain ⟨report, hreport, hroot⟩ :=
    (Option.any_eq_true _ _).mp (List.all_eq_true.mp hmatch id hid)
  obtain ⟨peer, message, hmem, hpeer, hsaid⟩ := h.said id report hreport
  refine ⟨peer, message, report, hpeer, hmem, hsaid, by simpa using hroot, ?_⟩
  intro message' report' hmem' hsaid'
  obtain ⟨last, hlast, hle⟩ := h.kept peer message' id report' hmem' hsaid'
  obtain rfl := Option.some.inj (hreport.symm.trans hlast)
  exact hle

/-! ## Every run -/

/-- The peer speaks for itself, and it is not this node. -/
def SpeaksForItself (localOrigin : Str) (peer : NodeId) (message : GossipMessage) : Prop :=
  message.origin = peer.toText ∧ peer.toText ≠ localOrigin

theorem speaksForItself_of_admits {d : Daemon W} (h : d.admits peer message) :
    SpeaksForItself d.localOrigin peer message := by
  rw [admits, Bool.and_eq_true, Bool.and_eq_true, beq_iff_eq, bne_iff_ne] at h
  exact ⟨h.1.1, h.1.1 ▸ h.1.2⟩

/-- What the daemon believes and does is what its peers have said for themselves. -/
structure Faithful (d : Daemon W) : Prop where
  handling : ∀ h ∈ d.handling, SpeaksForItself d.localOrigin h.peer h.message
  heard : ∀ x ∈ d.heard, SpeaksForItself d.localOrigin x.1 x.2
  believes : Believes d.heard d.rootReports
  converged : ∀ root ids, .converged root ids ∈ d.gcTasks → Agreed d.heard root ids
  collected : ∀ root ids, (root, ids) ∈ d.collected → Agreed d.heard root ids

section Run

variable [FileSystem W] [Blake3] {d d' : Daemon W} {act : DaemonAct W} {loaded : AddressBook}

omit [Blake3] [FileSystem W] in
theorem Started.faithful (h : d.Started) : d.Faithful where
  handling h' hh' := by
    rw [h.handling_eq] at hh'
    cases hh'
  heard x hx := by
    rw [h.heard_eq] at hx
    cases hx
  believes := by
    rw [h.heard_eq, h.rootReports_eq]
    exact ⟨fun o r hr ↦ by simp at hr, fun p m o r hmem ↦ by cases hmem⟩
  converged root ids hmem := by
    rw [h.gcTasks_eq] at hmem
    cases hmem
  collected root ids hmem := by
    rw [h.collected_eq] at hmem
    cases hmem

theorem Faithful.next (h : d.Faithful) (hnext : d.next act = some d') : d'.Faithful := by
  cases act with
  | hear peer message sourceIp =>
    rw [Daemon.next] at hnext
    split at hnext
    · cases hnext
    split at hnext
    · next hadmits =>
      obtain rfl := Option.some.inj hnext
      refine { h with handling := fun h' hh' ↦ ?_ }
      obtain rfl := Option.some.inj hh'
      exact speaksForItself_of_admits hadmits
    · obtain rfl := Option.some.inj hnext
      exact h
  | learn =>
    obtain ⟨h', hh', hnext⟩ := Option.bind_eq_some_iff.mp hnext
    split at hnext
    · cases hnext
    dsimp only at hnext
    split at hnext <;> obtain rfl := Option.some.inj hnext
    all_goals
      refine { h with handling := fun h'' hh'' ↦ ?_ }
      obtain rfl := Option.some.inj hh''
      exact h.handling h' hh'
  | record =>
    obtain ⟨h', hh', hnext⟩ := Option.bind_eq_some_iff.mp hnext
    split at hnext
    · cases hnext
    obtain rfl := Option.some.inj hnext
    have hself := h.handling h' hh'
    refine ⟨fun h'' hh'' ↦ ?_, fun x hx ↦ ?_, h.believes.record hself.1,
      fun root ids hmem ↦ (h.converged root ids hmem).mono (List.prefix_append _ _),
      fun root ids hmem ↦ (h.collected root ids hmem).mono (List.prefix_append _ _)⟩
    · obtain rfl := Option.some.inj hh''
      exact hself
    · rcases List.mem_append.mp hx with hx | hx
      · exact h.heard x hx
      · obtain rfl := List.mem_singleton.mp hx
        exact hself
  | finish saved =>
    obtain ⟨h', hh', hnext⟩ := Option.bind_eq_some_iff.mp hnext
    split at hnext
    · cases hnext
    obtain rfl := Option.some.inj hnext
    rw [dispatch]
    split <;> exact { h with handling := fun _ hh ↦ by cases hh }
  | gcRead =>
    obtain rfl := Option.some.inj hnext
    refine { h with converged := fun root ids hmem ↦ ?_ }
    rcases List.mem_append.mp hmem with hmem | hmem
    · exact h.converged root ids hmem
    · cases List.mem_singleton.mp hmem
  | gcCompare task =>
    rw [Daemon.next] at hnext
    split at hnext
    · next localRoot activePeerIds htask =>
      split at hnext
      · next hmatch =>
        obtain rfl := Option.some.inj hnext
        refine { h with converged := fun root ids hmem ↦ ?_ }
        rcases List.mem_or_eq_of_mem_set hmem with hmem | heq
        · exact h.converged root ids hmem
        · obtain ⟨rfl, rfl⟩ := GcTask.converged.inj heq
          exact h.believes.agreed hmatch
      · obtain rfl := Option.some.inj hnext
        exact ⟨h.handling, h.heard, h.believes, fun root ids hmem ↦
          h.converged root ids (List.mem_of_mem_eraseIdx hmem), h.collected⟩
    · cases hnext
  | gcCollect task =>
    rw [Daemon.next] at hnext
    split at hnext
    · next localRoot activePeerIds htask =>
      dsimp only at hnext
      have hagreed := h.converged localRoot activePeerIds (List.mem_of_getElem? htask)
      split at hnext <;> obtain rfl := Option.some.inj hnext
      · refine ⟨h.handling, h.heard, h.believes, fun root ids hmem ↦
          h.converged root ids (List.mem_of_mem_eraseIdx hmem), fun root ids hmem ↦ ?_⟩
        rcases List.mem_append.mp hmem with hmem | hmem
        · exact h.collected root ids hmem
        · obtain ⟨rfl, rfl⟩ := Prod.mk.inj (List.mem_singleton.mp hmem)
          exact hagreed
      · exact ⟨h.handling, h.heard, h.believes, fun root ids hmem ↦
          h.converged root ids (List.mem_of_mem_eraseIdx hmem), h.collected⟩
    · cases hnext
  | work node =>
    obtain rfl := Option.some.inj hnext
    exact { h with }
  | regroup group =>
    obtain rfl := Option.some.inj hnext
    exact { h with }

theorem faithful_of_reachable (h : (machine loaded).Reachable d) : d.Faithful :=
  Machine.Reachable.invariant (M := machine loaded) (fun _ hinit ↦ hinit.1.faithful)
    (fun _ _ _ ih ⟨_, _, hnext⟩ ↦ ih.next hnext) h

/-- The nodes 1 and 2, both active. -/
def pairEntries : List MemberEntry :=
  [1, 2].map fun b ↦ ⟨(GroupState.exampleId b).toText, .active, 1⟩

/-- The node 1 has started on an empty folder. -/
def listening : Daemon Posix.Disk :=
  ⟨Node.blank [lit "s"] (lit "A") (.of [([lit "s"], .dir 0o755)] []),
    ⟨(GroupState.exampleId 1).toText, ExtTreeMap.ofList (pairEntries.map fun e ↦ (e.id, e))⟩,
    ∅, fun _ ↦ none, (GroupState.exampleId 1).toText, none, [], [], [], []⟩

omit [FileSystem W] in
theorem started_listening : Started listening := ⟨rfl, rfl, rfl, rfl, rfl, rfl⟩

/-- What the node 1 does when it hears the node 2. -/
def hearing (message : GossipMessage) : List (DaemonAct Posix.Disk) :=
  [.hear (GroupState.exampleId 2) message (.v4 #v[10, 0, 0, 2]), .learn, .record, .finish (.ok ())]

/-- The node 2 has the same root. -/
def sameRoot : GossipMessage :=
  .syncState (GroupState.exampleId 2).toText listening.node.folder.tree.rootHash
    listening.node.folder.liveTree.rootHash 1 0 0 ∅

end Run

/-! ## Where peers are reached -/

section Book

variable [FileSystem W] [Blake3] {d d' : Daemon W} {act : DaemonAct W} {loaded : AddressBook}
  {finished : List (NodeId × GossipMessage × IpAddr)} {info : Option PeerInfo}

/-- The announcement says where its peer can be reached. -/
def TellsWhere (peer : NodeId) (x : NodeId × GossipMessage × IpAddr) : Prop :=
  x.1 = peer ∧ ∃ origin listenPort advertised name,
    x.2.1 = .endpoints origin listenPort advertised name

/-- What the book should say of a peer: what it has said itself the last time it said anything,
or else what was loaded. -/
def BookSays (loaded : AddressBook) (finished : List (NodeId × GossipMessage × IpAddr))
    (peer : NodeId) (info : Option PeerInfo) : Prop :=
  (info = loaded peer ∧ ∀ x ∈ finished, ¬ TellsWhere peer x) ∨
  ∃ before origin listenPort advertised name sourceIp after,
    finished = before ++ (peer, .endpoints origin listenPort advertised name, sourceIp) :: after ∧
    (∀ x ∈ after, ¬ TellsWhere peer x) ∧
    info = some ⟨mergedEndpoints (some (formatEndpoint sourceIp listenPort)) advertised, name⟩

variable {peer : NodeId} {x : NodeId × GossipMessage × IpAddr}

omit [Blake3] [FileSystem W] in
/-- What does not tell where the peer is changes nothing. -/
theorem BookSays.concat (h : BookSays loaded finished peer info) (hx : ¬ TellsWhere peer x) :
    BookSays loaded (finished ++ [x]) peer info := by
  rcases h with ⟨hinfo, hnone⟩ |
    ⟨before, origin, port, advertised, name, ip, after, rfl, hlast, hinfo⟩
  · refine .inl ⟨hinfo, fun y hy ↦ ?_⟩
    rcases List.mem_append.mp hy with hy | hy
    · exact hnone y hy
    · exact List.mem_singleton.mp hy ▸ hx
  · refine .inr ⟨before, origin, port, advertised, name, ip, after ++ [x], by simp, fun y hy ↦ ?_,
      hinfo⟩
    rcases List.mem_append.mp hy with hy | hy
    · exact hlast y hy
    · exact List.mem_singleton.mp hy ▸ hx

/-- Only the end of an announcement touches the book. -/
theorem next_frame (hnext : d.next act = some d') :
    (∃ h saved, d.handling = some h ∧ d' = { d with
      handling := none
      finished := d.finished ++ [(h.peer, h.message, h.sourceIp)] }.dispatch h saved) ∨
    d'.finished = d.finished ∧ d'.addressBook = d.addressBook ∧ d'.localOrigin = d.localOrigin := by
  cases act with
  | hear peer message sourceIp =>
    rw [next] at hnext
    split at hnext
    · cases hnext
    split at hnext <;> obtain rfl := Option.some.inj hnext <;> exact .inr ⟨rfl, rfl, rfl⟩
  | learn =>
    obtain ⟨h, hh, hnext⟩ := Option.bind_eq_some_iff.mp hnext
    split at hnext
    · cases hnext
    dsimp only at hnext
    split at hnext <;> obtain rfl := Option.some.inj hnext <;> exact .inr ⟨rfl, rfl, rfl⟩
  | record =>
    obtain ⟨h, hh, hnext⟩ := Option.bind_eq_some_iff.mp hnext
    split at hnext
    · cases hnext
    obtain rfl := Option.some.inj hnext
    exact .inr ⟨rfl, rfl, rfl⟩
  | finish saved =>
    obtain ⟨h, hh, hnext⟩ := Option.bind_eq_some_iff.mp hnext
    split at hnext
    · cases hnext
    exact .inl ⟨h, saved, hh, (Option.some.inj hnext).symm⟩
  | gcCompare task =>
    rw [next] at hnext
    split at hnext
    · split at hnext <;> obtain rfl := Option.some.inj hnext <;> exact .inr ⟨rfl, rfl, rfl⟩
    · cases hnext
  | gcCollect task =>
    rw [next] at hnext
    split at hnext
    · dsimp only at hnext
      split at hnext <;> obtain rfl := Option.some.inj hnext <;> exact .inr ⟨rfl, rfl, rfl⟩
    · cases hnext
  | gcRead | work | regroup =>
    obtain rfl := Option.some.inj hnext
    exact .inr ⟨rfl, rfl, rfl⟩

/-- The daemon has finished these announcements, and its book is what they say. -/
structure BookFollows (loaded : AddressBook) (d : Daemon W) : Prop where
  finished : ∀ x ∈ d.finished, SpeaksForItself d.localOrigin x.1 x.2.1
  book : ∀ peer, BookSays loaded d.finished peer (d.addressBook peer)

omit [Blake3] [FileSystem W] in
theorem BookFollows.dispatch {h : Handling} (hd : BookFollows loaded d)
    (hself : SpeaksForItself d.localOrigin h.peer h.message) (saved : IoResult Unit) :
    BookFollows loaded ({ d with
      handling := none
      finished := d.finished ++ [(h.peer, h.message, h.sourceIp)] }.dispatch h saved) := by
  have hfinished : ∀ x ∈ d.finished ++ [(h.peer, h.message, h.sourceIp)],
      SpeaksForItself d.localOrigin x.1 x.2.1 := by
    intro x hx
    rcases List.mem_append.mp hx with hx | hx
    · exact hd.finished x hx
    · obtain rfl := List.mem_singleton.mp hx
      exact hself
  have hother (hnot : ∀ origin port advertised name,
      h.message ≠ .endpoints origin port advertised name) (peer : NodeId) :
      BookSays loaded (d.finished ++ [(h.peer, h.message, h.sourceIp)]) peer
        (d.addressBook peer) := by
    refine (hd.book peer).concat ?_
    rintro ⟨-, origin, port, advertised, name, heq⟩
    exact hnot origin port advertised name heq
  obtain ⟨speaker, message, sourceIp, stage⟩ := h
  cases message with
  | endpoints origin port advertised name =>
    refine ⟨hfinished, fun peer ↦ ?_⟩
    rw [Daemon.dispatch]
    dsimp only
    rw [mergePeerEndpoints_snd]
    by_cases hp : peer = speaker
    · subst hp
      rw [Function.update_self]
      exact .inr ⟨d.finished, origin, port, advertised, name, sourceIp, [], rfl,
        fun _ hmem ↦ absurd hmem List.not_mem_nil, rfl⟩
    · rw [Function.update_of_ne hp]
      exact (hd.book peer).concat fun htells ↦ hp htells.1.symm
  | syncState => exact ⟨hfinished, hother fun _ _ _ _ heq ↦ by cases heq⟩
  | filesystemChanged => exact ⟨hfinished, hother fun _ _ _ _ heq ↦ by cases heq⟩
  | peers => exact ⟨hfinished, hother fun _ _ _ _ heq ↦ by cases heq⟩

theorem bookFollows_of_reachable (h : (machine loaded).Reachable d) : BookFollows loaded d := by
  refine Machine.Reachable.invariant (M := machine loaded) ?_ ?_ h
  · rintro d ⟨hstarted, rfl⟩
    refine ⟨fun x hx ↦ ?_, fun peer ↦ .inl ⟨rfl, fun x hx ↦ ?_⟩⟩
    all_goals
      rw [hstarted.finished_eq] at hx
      cases hx
  · rintro d d' hd ih ⟨act, -, hnext⟩
    rcases next_frame hnext with ⟨h, saved, hh, rfl⟩ | ⟨hf, hb, ho⟩
    · exact ih.dispatch ((faithful_of_reachable hd).handling h hh) saved
    · refine ⟨?_, ?_⟩
      · rw [hf, ho]
        exact ih.finished
      · rw [hf, hb]
        exact ih.book

/-- In every run, where a peer can be reached according to the book was loaded, or it is what the
peer itself has said last: the address it was seen at, then addresses of its own, at most eight of
them and none twice. -/
theorem addressBook_of_reachable (h : (machine loaded).Reachable d) {peer : NodeId}
    {info : PeerInfo} (hinfo : d.addressBook peer = some info) :
    (loaded peer = some info ∧ ∀ x ∈ d.finished, ¬ TellsWhere peer x) ∨
    ∃ before listenPort advertised name sourceIp after,
      d.finished = before ++
        (peer, .endpoints peer.toText listenPort advertised name, sourceIp) :: after ∧
      (∀ x ∈ after, ¬ TellsWhere peer x) ∧ peer.toText ≠ d.localOrigin ∧
      info.name = name ∧ info.endpoints.head? = some (formatEndpoint sourceIp listenPort) ∧
      info.endpoints.Nodup ∧ info.endpoints.length ≤ maxEndpointsPerPeer ∧
      ∀ e ∈ info.endpoints, e = formatEndpoint sourceIp listenPort ∨ e ∈ advertised := by
  have hfollows := bookFollows_of_reachable h
  rcases hfollows.book peer with ⟨heq, hnone⟩ |
    ⟨before, origin, port, advertised, name, ip, after, heq, hlast, hsays⟩
  · exact .inl ⟨heq.symm.trans hinfo, hnone⟩
  · obtain ⟨horigin, hlocal⟩ := hfollows.finished _
      (heq ▸ List.mem_append_right _ List.mem_cons_self)
    obtain rfl : origin = peer.toText := horigin
    obtain rfl := Option.some.inj (hinfo.symm.trans hsays)
    obtain ⟨hhead, hnodup, hlen, hmem⟩ := mergedEndpoints_spec (formatEndpoint ip port) advertised
    exact .inr ⟨before, port, advertised, name, ip, after, heq, hlast, hlocal, rfl, hhead, hnodup,
      hlen, hmem⟩

/-- The node 2 says where it listens. -/
def listensAt : GossipMessage :=
  .endpoints (GroupState.exampleId 2).toText 4000 [lit "10.0.0.2:4000", lit "b:4000"] none

omit [FileSystem W] [Blake3] in
theorem addressBook_of_reachable_told :
    let _ : Blake3 := Blake3.reference
    ∃ d : Daemon Posix.Disk, Machine.runs Daemon.next (fun _ _ ↦ True) listening
        (hearing listensAt ++ hearing sameRoot) = some d ∧
      ∃ info, d.addressBook (GroupState.exampleId 2) = some info ∧ info.endpoints.Nodup ∧
        info.endpoints.head? = some (lit "10.0.0.2:4000") := by
  intro _
  have htold : (Machine.runs Daemon.next (fun _ _ ↦ True) listening
      (hearing listensAt ++ hearing sameRoot)).any fun d ↦
        (d.addressBook (GroupState.exampleId 2)).any fun info ↦
          info.endpoints.head? == some (lit "10.0.0.2:4000") := by decide +kernel
  obtain ⟨d, hd, hany⟩ := (Option.any_eq_true _ _).mp htold
  obtain ⟨info, hinfo, hhead⟩ := (Option.any_eq_true _ _).mp hany
  have hreach : (machine fun _ ↦ none).Reachable d :=
    Machine.reachable_runs (.init ⟨started_listening, rfl⟩) hd
  refine ⟨d, hd, info, hinfo, ?_, by simpa using hhead⟩
  rcases addressBook_of_reachable hreach hinfo with ⟨hnone, -⟩ |
    ⟨_, _, _, _, _, _, -, -, -, -, -, hnodup, -, -⟩
  · cases hnone
  · exact hnodup

end Book

end Daemon

end Lilsync
