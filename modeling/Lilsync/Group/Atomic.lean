import Lilsync.Group.Sticky
import Lilsync.Rpc.Transfer

/-!
# Ledger operations that cannot be saved

A method changes the ledger and then saves it.  If it cannot be saved, the method
fails and the ledger stays changed: a peer whose join is rejected for that reason
is a member all the same.
-/

namespace Lilsync

open Lilsync.Lib

/-! ## The methods -/

namespace GroupState

variable {g : GroupState} {saved : IoResult Unit} {a : Act}

/-- What a method returns, as far as it tells success from failure. -/
def outcome (g : GroupState) (saved : IoResult Unit) : Act → IoResult Unit
  | .add peer => (g.addActivePeer peer saved).1.map fun _ ↦ ()
  | .remove target => (g.removePeer target saved).1.map fun _ ↦ ()
  | .merge incoming => (g.mergeMembers incoming saved).1.map fun _ ↦ ()

/-- The method fails because the ledger could not be saved. -/
def FailsToPersist (g : GroupState) (saved : IoResult Unit) (a : Act) : Prop :=
  ¬ (g.outcome saved a).isOk ∧ (g.outcome (.ok ()) a).isOk

/-- The method gets as far as saving the ledger. -/
def Persists (g : GroupState) : Act → Prop
  | .add peer => ¬ g.isActiveMember peer
  | .remove target => ∃ e ∈ g.memberList.find? fun e ↦ e.id = target, e.id ≠ g.localId
  | .merge incoming => incoming.any (applies g.members)

/-- The method has something to change: a peer to add is not active, a peer to remove
is not there with just the entry it would get, of the members to merge one is new. -/
def Changes (g : GroupState) : Act → Prop
  | .add peer => ¬ g.isActiveMember peer
  | .remove target => ∃ e ∈ g.memberList.find? fun e ↦ e.id = target, e.id ≠ g.localId ∧
      g.members[e.id]? ≠ some { e with status := .removed, lamport := nextLamport g.members }
  | .merge incoming => incoming.any (applies g.members)

theorem Changes.persists (h : Changes g a) : Persists g a := by
  cases a with
  | add peer => exact h
  | remove target =>
    obtain ⟨e, he, hne, -⟩ := h
    exact ⟨e, he, hne⟩
  | merge incoming => exact h

theorem isOk_map_map {α : Type} (r : IoResult Unit) (a : α) :
    ((r.map fun _ ↦ a).map fun _ ↦ ()).isOk = r.isOk := by
  cases r <;> rfl

/-- Adding an active peer. -/
theorem addActivePeer_of_active {peer : NodeId} (h : g.isActiveMember peer) (saved : IoResult Unit) :
    g.addActivePeer peer saved = (.ok false, g) := by
  obtain ⟨e, he, hactive⟩ := (Option.any_eq_true _ _).mp h
  rw [addActivePeer]
  simp only [he, of_decide_eq_true hactive, ↓reduceIte]

/-- Adding a peer that is not active: it is active afterwards, saved or not. -/
theorem addActivePeer_of_not_active {peer : NodeId} (h : ¬ g.isActiveMember peer)
    (saved : IoResult Unit) : (g.addActivePeer peer saved).1 = saved.map (fun _ ↦ true) ∧
      (g.addActivePeer peer saved).2.isActiveMember peer := by
  rw [addActivePeer]
  cases he : g.members[peer.toText]? with
  | none =>
    refine ⟨rfl, ?_⟩
    simp only [isActiveMember, OrdMap.getElem?_insert_eq, ↓reduceIte, Option.any_some, decide_true]
  | some e =>
    have hactive : e.status ≠ .active := by
      rw [isActiveMember, he, Option.any_some, decide_eq_true_iff] at h
      exact h
    dsimp only
    rw [if_neg hactive]
    refine ⟨rfl, ?_⟩
    simp only [isActiveMember, OrdMap.getElem?_insert_eq, ↓reduceIte, Option.any_some, decide_true]

/-- A method that gets as far as saving succeeds if saving does. -/
theorem isOk_outcome_of_persists (h : Persists g a) (saved : IoResult Unit) :
    (g.outcome saved a).isOk = saved.isOk := by
  cases a with
  | add peer => rw [outcome, (addActivePeer_of_not_active h saved).1, isOk_map_map]
  | remove target =>
    obtain ⟨e, he, hne⟩ := h
    rw [outcome, removePeer]
    simp only [Option.mem_def.mp he, hne, ↓reduceIte]
    exact isOk_map_map saved _
  | merge incoming =>
    obtain ⟨merge, -, heq⟩ := mergeMembers_of_applies h saved
    rw [outcome, heq, isOk_map_map]

/-- The outcome of a method that does not get that far has nothing to do with saving. -/
theorem outcome_of_not_persists (h : ¬ Persists g a) (saved saved' : IoResult Unit) :
    g.outcome saved a = g.outcome saved' a := by
  cases a with
  | add peer =>
    rw [Persists, not_not] at h
    rw [outcome, outcome, addActivePeer_of_active h, addActivePeer_of_active h]
  | remove target =>
    rw [outcome, outcome, removePeer, removePeer]
    split
    · rfl
    · next e he =>
      split
      · rfl
      · next hne => exact absurd ⟨e, he, hne⟩ h
  | merge incoming =>
    rw [outcome, outcome, mergeMembers_of_not_applies h, mergeMembers_of_not_applies h]

theorem failsToPersist_iff : FailsToPersist g saved a ↔ ¬ saved.isOk ∧ Persists g a := by
  by_cases h : Persists g a
  · rw [FailsToPersist, isOk_outcome_of_persists h, isOk_outcome_of_persists h]
    exact and_congr_right fun _ ↦ iff_of_true rfl h
  · rw [FailsToPersist, outcome_of_not_persists h saved (.ok ())]
    exact iff_of_false (fun hf ↦ hf.1 hf.2) fun hf ↦ h hf.2

/-- A member that is taken over makes a difference that stays. -/
theorem foldl_takeOver_ne {members : Members} {incoming : List MemberEntry}
    (h : incoming.any (applies members)) : incoming.foldl takeOver members ≠ members := by
  induction incoming with
  | nil => exact absurd h Bool.false_ne_true
  | cons e incoming ih =>
    rw [List.any_cons, Bool.or_eq_true] at h
    rw [List.foldl_cons]
    by_cases happ : applies members e
    · intro heq
      obtain ⟨e', he', hle⟩ := LedgerOnDisk.ascends_foldl_takeOver incoming (takeOver members e)
        e.id e (by rw [takeOver, if_pos happ, OrdMap.getElem?_insert_eq, if_pos rfl])
      rw [heq] at he'
      have hlt := (Bool.and_eq_true_iff.mp happ).2
      rw [he', Option.all_some, decide_eq_true_iff] at hlt
      exact absurd hle (UInt64.not_le.mpr hlt)
    · rw [takeOver, if_neg happ]
      exact ih (h.resolve_left happ)

/-- A method with something to change changes it, saved or not. -/
theorem members_act_eq_iff (h : Persists g a) (saved : IoResult Unit) :
    (g.act saved a).members = g.members ↔ ¬ Changes g a := by
  cases a with
  | add peer =>
    refine iff_of_false (fun heq ↦ h ?_) (not_not.mpr h)
    have hactive := (addActivePeer_of_not_active h saved).2
    rw [isActiveMember, show (g.addActivePeer peer saved).2.members = g.members from heq] at hactive
    exact hactive
  | remove target =>
    obtain ⟨e, he, hne⟩ := h
    rw [Option.mem_def] at he
    have hact : (g.act saved (.remove target)).members = g.members.insert e.id
        { e with status := .removed, lamport := nextLamport g.members } := by
      rw [act, removePeer]
      simp only [he, hne, ↓reduceIte]
    have hchanges : Changes g (.remove target) ↔ g.members[e.id]? ≠
        some { e with status := .removed, lamport := nextLamport g.members } := by
      constructor
      · rintro ⟨e', he', -, hdiff⟩
        cases he.symm.trans he'
        exact hdiff
      · exact fun hdiff ↦ ⟨e, he, hne, hdiff⟩
    rw [hact, hchanges, not_not]
    constructor
    · intro heq
      have hget := congrArg (·[e.id]?) heq
      rw [OrdMap.getElem?_insert_eq, if_pos rfl] at hget
      exact hget.symm
    · intro heq
      refine Std.ExtTreeMap.ext_getElem? fun k ↦ ?_
      rw [OrdMap.getElem?_insert_eq]
      split
      · next hk => rw [← hk, heq]
      · rfl
  | merge incoming =>
    refine iff_of_false (fun heq ↦ foldl_takeOver_ne h ?_) (not_not.mpr h)
    rw [act, mergeMembers_snd] at heq
    exact heq

/-- A method that cannot save leaves the ledger as it was if and only if it has nothing
to change. -/
theorem unchanged_iff (g : GroupState) (saved : IoResult Unit) (a : Act) :
    (FailsToPersist g saved a → (g.act saved a).members = g.members) ↔
      saved.isOk ∨ ¬ Changes g a := by
  rw [failsToPersist_iff]
  constructor
  · intro h
    by_cases hok : saved.isOk
    · exact .inl hok
    · refine .inr fun hchanges ↦ ?_
      exact (members_act_eq_iff hchanges.persists saved).mp (h ⟨hok, hchanges.persists⟩) hchanges
  · rintro (hok | hsame) ⟨hfail, hpersists⟩
    · exact absurd hok hfail
    · exact (members_act_eq_iff hpersists saved).mpr hsame

end GroupState

/-! ## Joining -/

section Join

variable {Gossip IpAddr : Type} [Blake3] {s s' : RpcServer Gossip IpAddr} {peer : NodeId}
  {sourceIp : IpAddr} {weather : JoinWeather} {requestId : Nat} {secret joinerId : Str}

/-- The requests of the peer are refused, and change nothing: those that ask for membership,
and `GetPeers`, which a removed member may make, unless the peer is one. -/
structure Refuses (Gossip IpAddr : Type) [Blake3] (group : GroupState) (peer : NodeId) : Prop where
  guarded : ∀ (s : RpcServer Gossip IpAddr) (sourceIp : IpAddr) (weather : JoinWeather)
    (request : RequestMessage Gossip), s.group = group → request.isGuarded →
      handleRequest s peer sourceIp weather request = some (notAMember request.requestId, s)
  getPeers : ∀ (s : RpcServer Gossip IpAddr) (sourceIp : IpAddr) (weather : JoinWeather)
    (requestId : Nat), s.group = group → ¬ group.isKnownMember peer →
      handleRequest s peer sourceIp weather (.getPeers requestId) = some (notAMember requestId, s)
  getObject : ∀ (wire : Wire Gossip) (state : FolderState) (requestId : Nat) (contentHash : Hash)
    (files : PathBuf → ServedFile) (turns : Nat),
      handleGetObject wire state group peer requestId contentHash files turns =
        sendJson (wire.responseToVec (notAMember requestId))

/-- A peer that is not active is refused. -/
theorem refuses_of_inactive {group : GroupState} (h : ¬ group.isActiveMember peer) :
    Refuses Gossip IpAddr group peer where
  guarded s sourceIp weather request hgroup hguarded :=
    handleRequest_of_inactive (hgroup ▸ h) hguarded sourceIp weather
  getPeers s sourceIp weather requestId hgroup hknown := by
    have hcheck : checkKnownMember s.group peer requestId = .error (notAMember requestId) :=
      if_neg (hgroup ▸ hknown)
    rw [handleRequest, hcheck]
  getObject wire state requestId contentHash files turns := by
    rw [handleGetObject]
    exact if_pos h

/-- If the join is rejected, the joiner is inactive and refused from then on. -/
def RejectsCleanly (s : RpcServer Gossip IpAddr) (peer : NodeId) (sourceIp : IpAddr)
    (weather : JoinWeather) (requestId : Nat) (secret joinerId : Str) : Prop :=
  ∀ reason s', handleRequest s peer sourceIp weather (.join requestId secret joinerId) =
      some (.joinRejected requestId reason, s') →
    ¬ s'.group.isActiveMember peer ∧ Refuses Gossip IpAddr s'.group peer

/-- The joiner is who it says and has a ticket. -/
def HasTicket (weather : JoinWeather) (peer : NodeId) (secret joinerId : Str) : Prop :=
  joinerId = peer.toText ∧ consumeInvite weather secret = .ok true

/-- A join without a ticket is rejected, and nothing changes. -/
theorem handleRequest_join_of_not_hasTicket (h : ¬ HasTicket weather peer secret joinerId) :
    ∃ reason, handleRequest s peer sourceIp weather (.join requestId secret joinerId) =
      some (.joinRejected requestId reason, s) := by
  rw [handleRequest]
  split
  · exact ⟨_, rfl⟩
  · next hid =>
    split
    · next hinvite => exact absurd ⟨not_not.mp hid, hinvite⟩ h
    · exact ⟨_, rfl⟩
    · exact ⟨_, rfl⟩

/-- A join with a ticket is rejected if the peer cannot be added, and what adding it did
to the ledger stays. -/
theorem handleRequest_join_of_hasTicket (h : HasTicket weather peer secret joinerId) :
    handleRequest s peer sourceIp weather (.join requestId secret joinerId) =
      match s.group.addActivePeer peer weather.savedPeers with
      | (.ok _, group) => some (.joinAccepted requestId group.memberList,
          { s with group, events := s.events ++ [.peerJoined peer] })
      | (.error err, group) =>
        some (.joinRejected requestId (.couldNotAddPeer err), { s with group }) := by
  rcases hadd : s.group.addActivePeer peer weather.savedPeers with ⟨err | _, group⟩
  · simp only [handleRequest, if_neg (not_not.mpr h.1), h.2, hadd]
  · simp only [handleRequest, if_neg (not_not.mpr h.1), h.2, hadd]

theorem rejectsCleanly_iff (s : RpcServer Gossip IpAddr) (peer : NodeId) (sourceIp : IpAddr)
    (weather : JoinWeather) (requestId : Nat) (secret joinerId : Str) :
    RejectsCleanly s peer sourceIp weather requestId secret joinerId ↔
      (HasTicket weather peer secret joinerId →
        weather.savedPeers.isOk ∨ s.group.isActiveMember peer) ∧
      (¬ HasTicket weather peer secret joinerId → ¬ s.group.isActiveMember peer) := by
  by_cases hticket : HasTicket weather peer secret joinerId
  · rw [RejectsCleanly, handleRequest_join_of_hasTicket hticket]
    by_cases hactive : s.group.isActiveMember peer
    · rw [GroupState.addActivePeer_of_active hactive]
      refine iff_of_true (fun reason s' heq ↦ ?_) ⟨fun _ ↦ .inr hactive, fun h ↦ absurd hticket h⟩
      cases heq
    · obtain ⟨hres, hafter⟩ := GroupState.addActivePeer_of_not_active hactive weather.savedPeers
      generalize s.group.addActivePeer peer weather.savedPeers = added at hres hafter
      obtain ⟨res, group⟩ := added
      cases hsaved : weather.savedPeers with
      | ok _ =>
        rw [hsaved] at hres
        subst hres
        refine iff_of_true (fun reason s' heq ↦ ?_) ⟨fun _ ↦ .inl rfl, fun h ↦ absurd hticket h⟩
        cases heq
      | error err =>
        rw [hsaved] at hres
        subst hres
        refine iff_of_false (fun h ↦ (h _ _ rfl).1 hafter) fun h ↦ ?_
        rcases h.1 hticket with hok | hact
        · cases hok
        · exact hactive hact
  · obtain ⟨reason, hrejected⟩ := @handleRequest_join_of_not_hasTicket _ _ _ s peer sourceIp weather
      requestId secret joinerId hticket
    rw [RejectsCleanly, hrejected]
    constructor
    · exact fun h ↦ ⟨fun ht ↦ absurd ht hticket, fun _ ↦ (h _ _ rfl).1⟩
    · rintro ⟨-, hinactive⟩ reason' s' heq
      cases heq
      exact ⟨hinactive hticket, refuses_of_inactive (hinactive hticket)⟩

/-- A ledger that could not be saved is as it was, and a joiner that is rejected stays
outside, under just these conditions. -/
theorem atomic_iff :
    (∀ (g : GroupState) (saved : IoResult Unit) (a : GroupState.Act),
      (g.FailsToPersist saved a → (g.act saved a).members = g.members) ↔
        saved.isOk ∨ ¬ g.Changes a) ∧
    ∀ (s : RpcServer Gossip IpAddr) (peer : NodeId) (sourceIp : IpAddr) (weather : JoinWeather)
      (requestId : Nat) (secret joinerId : Str),
      RejectsCleanly s peer sourceIp weather requestId secret joinerId ↔
        (HasTicket weather peer secret joinerId →
          weather.savedPeers.isOk ∨ s.group.isActiveMember peer) ∧
        (¬ HasTicket weather peer secret joinerId → ¬ s.group.isActiveMember peer) :=
  ⟨GroupState.unchanged_iff, rejectsCleanly_iff⟩

/-- A server that has one invite, for the secret `s`, and cannot save its ledger. -/
def unsaved : JoinWeather :=
  ⟨.ok [⟨hashSecret (lit "s"), 1⟩], .ok 0, .ok (), .error (.ofKind .other)⟩

theorem consumeInvite_unsaved : consumeInvite unsaved (lit "s") = .ok true := by
  have hedit : (InviteOp.consume (lit "s")).edit [⟨hashSecret (lit "s"), 1⟩] 0 = ([], true) := by
    simp [InviteOp.edit]
  simp only [consumeInvite, unsaved, bind, Except.bind, hedit]
  rfl

/-- A ledger without members. -/
def noMembers : GroupState := ⟨lit "A", ∅⟩

omit [Blake3] in
theorem not_isActiveMember_noMembers (peer : NodeId) : ¬ noMembers.isActiveMember peer := by
  simp [noMembers, GroupState.isActiveMember]

omit [Blake3] in
/-- The counterexample: a peer is added, or joins with a ticket, and the ledger cannot be
saved.  The peer is active and its requests are answered. -/
theorem not_forall_atomic :
    letI : Blake3 := Blake3.reference
    (¬ ∀ (g : GroupState) (saved : IoResult Unit) (a : GroupState.Act),
      g.FailsToPersist saved a → (g.act saved a).members = g.members) ∧
    ¬ ∀ (s : RpcServer Unit Unit) (peer : NodeId) (sourceIp : Unit) (weather : JoinWeather)
      (requestId : Nat) (secret joinerId : Str),
      RejectsCleanly s peer sourceIp weather requestId secret joinerId := by
  let _ : Blake3 := Blake3.reference
  have hinactive := not_isActiveMember_noMembers (GroupState.exampleId 2)
  refine ⟨fun h ↦ ?_, fun h ↦ ?_⟩
  · have hpersists : noMembers.Persists (.add (GroupState.exampleId 2)) := hinactive
    have hsame := h noMembers (.error (.ofKind .other)) (.add (GroupState.exampleId 2))
      (GroupState.failsToPersist_iff.mpr ⟨Bool.false_ne_true, hpersists⟩)
    exact (GroupState.members_act_eq_iff hpersists _).mp hsame hpersists
  · have hclean := h ⟨(Node.blank [lit "s"] (lit "A") ()).folder, noMembers, []⟩
      (GroupState.exampleId 2) () unsaved 1 (lit "s") (GroupState.exampleId 2).toText
    rcases ((rejectsCleanly_iff _ _ _ _ _ _ _).mp hclean).1 ⟨rfl, consumeInvite_unsaved⟩ with hok | hactive
    · cases hok
    · exact hinactive hactive

end Join

end Lilsync
