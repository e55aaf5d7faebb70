import Lilsync.Rpc.Transfer

/-!
# Who is let in

The server of `rpc.rs` at work.  Each connection handles its requests one after the
other, and takes the locks anew for each step: the check of membership, the answer,
what `consume_invite` does with its file, the change of the ledger.  Between the steps
of one connection come those of others, and the daemon merges member lists and
removes peers, the folder changes, the command line adds invites.

Whatever comes in between, nothing is told but to members, and nobody is listed without an
invite or a word from elsewhere (`Service.admission_of_reachable`).
-/

namespace Lilsync

open Lilsync.Lib

/-! ## Where invites come from -/

/-- The invites that a call has in its hands. -/
def InvitePc.held : InvitePc → List PendingInvite
  | .loaded invites | .saving invites _ => invites
  | _ => []

namespace InviteSystem

/-- Calls go on, and what they have returned stays. -/
structure Kept (s s' : InviteSystem) : Prop where
  op : ∀ {t : Nat} {op : InviteOp} {pc : InvitePc}, s.calls[t]? = some ⟨op, pc⟩ →
    ∃ pc', s'.calls[t]? = some ⟨op, pc'⟩
  done : ∀ {t : Nat} {op : InviteOp} {now : Nat} {found : Bool},
    s.calls[t]? = some ⟨op, .done now found⟩ → s'.calls[t]? = some ⟨op, .done now found⟩

section Trace

variable [Blake3] {s s' : InviteSystem} {old invites : List PendingInvite} {t : Nat}
  {call : InviteCall} {i : PendingInvite} {pc : InvitePc}

/-- The invite was on file at the start, or `add_invite` has been called for it. -/
def Issued (old : List PendingInvite) (s : InviteSystem) (i : PendingInvite) : Prop :=
  i ∈ old ∨ ∃ (t : Nat) (secret : Str) (pc : InvitePc),
    s.calls[t]? = some ⟨.add secret i.expiresAtMs, pc⟩ ∧ i.secretHash = hashSecret secret

/-- All invites around have been issued, and `consume_invite` has found its own in time. -/
structure Traced (old : List PendingInvite) (s : InviteSystem) : Prop where
  filed : ∀ i ∈ s.invites, Issued old s i
  held : ∀ {t : Nat} {call : InviteCall}, s.calls[t]? = some call →
    ∀ i ∈ call.pc.held, Issued old s i
  found : ∀ {t : Nat} {secret : Str} {now : Nat}, s.Accepted t secret now →
    ∃ i, Issued old s i ∧ i.secretHash = hashSecret secret ∧ now < i.expiresAtMs

omit [Blake3] in
theorem Kept.refl (s : InviteSystem) : Kept s s where
  op h := ⟨_, h⟩
  done h := h

theorem Issued.mono (h : Issued old s i) (hkept : Kept s s') : Issued old s' i := by
  rcases h with h | ⟨t, secret, pc, hcall, hhash⟩
  · exact .inl h
  · obtain ⟨pc', hcall⟩ := hkept.op hcall
    exact .inr ⟨t, secret, pc', hcall, hhash⟩

omit [Blake3] in
theorem kept_append (s : InviteSystem) (call : InviteCall) :
    Kept s { s with calls := s.calls ++ [call] } where
  op h := ⟨_, (List.getElem?_append_left (List.getElem?_eq_some_iff.mp h).1).trans h⟩
  done h := (List.getElem?_append_left (List.getElem?_eq_some_iff.mp h).1).trans h

omit [Blake3] in
theorem kept_setPc (ht : s.calls[t]? = some call) (hcall : call.pc.isDone = false)
    (hcalls : s'.calls = (s.setPc t pc).calls) : Kept s s' where
  op {u op pc'} hu := by
    rw [hcalls, getElem?_setPc, hu]
    by_cases htu : t = u
    · exact ⟨pc, congrArg some (if_pos htu)⟩
    · exact ⟨pc', congrArg some (if_neg htu)⟩
  done {u op now found} hu := by
    rw [hcalls, getElem?_setPc, hu]
    refine congrArg some (if_neg ?_)
    rintro rfl
    obtain rfl := Option.some.inj (ht.symm.trans hu)
    cases hcall

theorem Traced.append (h : Traced old s) (op : InviteOp) :
    Traced old { s with calls := s.calls ++ [⟨op, .loading⟩] } where
  filed i hi := (h.filed i hi).mono (kept_append s _)
  held ht i hi := by
    rcases getElem?_append_call ht with ht | ⟨-, rfl⟩
    · exact (h.held ht i hi).mono (kept_append s _)
    · cases hi
  found ha := by
    obtain ⟨i, hi, hrest⟩ := h.found (done_append_iff.mp ha)
    exact ⟨i, hi.mono (kept_append s _), hrest⟩

/-- A call takes a step. -/
theorem Traced.advance (h : Traced old s) (ht : s.calls[t]? = some call)
    (hcall : call.pc.isDone = false) (hcalls : s'.calls = (s.setPc t pc).calls)
    (hfiled : ∀ i ∈ s'.invites, Issued old s i) (hheld : ∀ i ∈ pc.held, Issued old s i)
    (hfound : ∀ secret now, call.op = .consume secret → pc = .done now true →
      ∃ i, Issued old s i ∧ i.secretHash = hashSecret secret ∧ now < i.expiresAtMs) :
    Traced old s' ∧ Kept s s' := by
  have hkept := kept_setPc ht hcall hcalls
  refine ⟨⟨fun i hi ↦ (hfiled i hi).mono hkept, fun hu i hi ↦ ?_, fun ha ↦ ?_⟩, hkept⟩
  · rw [hcalls] at hu
    rcases getElem?_of_setPc ht hu with ⟨-, rfl⟩ | hu
    · exact (hheld i hi).mono hkept
    · exact (h.held hu i hi).mono hkept
  · rw [Accepted, hcalls] at ha
    rcases (accepted_setPc_iff ht hcall).mp ha with ha | ⟨-, hop, hpc⟩
    · obtain ⟨i, hi, hrest⟩ := h.found ha
      exact ⟨i, hi.mono hkept, hrest⟩
    · obtain ⟨i, hi, hrest⟩ := hfound _ _ hop hpc
      exact ⟨i, hi.mono hkept, hrest⟩

/-- A call puts nothing on file but what was there, and the invite that it adds. -/
theorem issued_of_mem_edit {now : Nat} (hinvites : ∀ i ∈ invites, Issued old s i)
    (ht : s.calls[t]? = some call) (hi : i ∈ (call.op.edit invites now).1) : Issued old s i := by
  obtain ⟨op, pc⟩ := call
  cases op with
  | add secret expiresAtMs =>
    rcases mem_edit_add.mp hi with ⟨hi, -⟩ | rfl
    · exact hinvites i hi
    · exact .inr ⟨t, secret, pc, ht, rfl⟩
  | consume secret => exact hinvites i (mem_edit_consume.mp hi).1

theorem Traced.runCall (h : Traced old s) (ht : s.calls[t]? = some call) {weather : InviteWeather}
    (hrun : s.runCall t call weather = some s') : Traced old s' ∧ Kept s s' := by
  have hfailed (err : IoError) (hcall : call.pc.isDone = false) :
      Traced old (s.setPc t (.failed err)) ∧ Kept s (s.setPc t (.failed err)) :=
    h.advance ht hcall rfl h.filed (fun i hi ↦ by cases hi) fun _ _ _ hpc ↦ by cases hpc
  rw [InviteSystem.runCall] at hrun
  cases hpc : call.pc with rw [hpc] at hrun
  | loading =>
    have hcall : call.pc.isDone = false := by rw [hpc]; rfl
    dsimp only at hrun
    split at hrun <;> obtain rfl := Option.some.inj hrun
    · exact hfailed _ hcall
    · exact h.advance ht hcall rfl h.filed h.filed fun _ _ _ hdone ↦ by cases hdone
  | loaded invites =>
    have hcall : call.pc.isDone = false := by rw [hpc]; rfl
    have hinvites : ∀ i ∈ invites, Issued old s i := by
      have hheld := h.held ht
      rwa [hpc] at hheld
    dsimp only at hrun
    split at hrun <;> obtain rfl := Option.some.inj hrun
    · exact hfailed _ hcall
    · next now hnow =>
      by_cases hsaves : call.op.saves invites (call.op.edit invites now).1 = true
      · rw [if_pos hsaves]
        exact h.advance ht hcall rfl h.filed hinvites fun _ _ _ hdone ↦ by cases hdone
      · rw [if_neg hsaves]
        refine h.advance ht hcall rfl h.filed (fun i hi ↦ by cases hi) fun _ _ _ hdone ↦ ?_
        rw [not_found_of_not_saves (Bool.not_eq_true _ ▸ hsaves)] at hdone
        cases hdone
  | saving loaded now =>
    have hcall : call.pc.isDone = false := by rw [hpc]; rfl
    have hloaded : ∀ i ∈ loaded, Issued old s i := by
      have hheld := h.held ht
      rwa [hpc] at hheld
    dsimp only at hrun
    split at hrun <;> obtain rfl := Option.some.inj hrun
    · exact hfailed _ hcall
    · refine h.advance ht hcall rfl (fun i hi ↦ issued_of_mem_edit hloaded ht hi)
        (fun i hi ↦ by cases hi) fun secret now' hop hdone ↦ ?_
      obtain ⟨rfl, hfound⟩ := InvitePc.done.inj hdone
      rw [hop] at hfound
      obtain ⟨i, hi, hlt, hhash⟩ := found_consume.mp hfound
      exact ⟨i, hloaded i hi, hhash, hlt⟩
  | done now found => cases hrun
  | failed err => cases hrun

end Trace

end InviteSystem

/-! ## The server at work -/

/-- How far the server is with a connection. -/
inductive RequestPc (Gossip : Type) where
  | waiting
  | received (request : RequestMessage Gossip)
  /-- The check has let the request through. -/
  | checked (request : RequestMessage Gossip)
  /-- `consume_invite` is under way. -/
  | consuming (requestId call : Nat)
  /-- `consume_invite` has returned `true`. -/
  | accepted (requestId call : Nat)
  | closed

/-- A connection, with what `handle_connection` knows of its peer. -/
structure Caller (Gossip IpAddr : Type) where
  peer : NodeId
  sourceIp : IpAddr
  pc : RequestPc Gossip

/-- The server, its connections, and the calls on the file of invites. -/
structure Service (Gossip IpAddr : Type) where
  server : RpcServer Gossip IpAddr
  invites : InviteSystem
  callers : List (Caller Gossip IpAddr)
  /-- Ghost: the ledger at the start. -/
  start : GroupState
  /-- Ghost: the invites on file at the start. -/
  old : List PendingInvite
  /-- Ghost: the ledgers there have been. -/
  ledgers : List GroupState
  /-- Ghost: the entries that have been merged. -/
  merged : List MemberEntry
  /-- Ghost: who has made which call of `consume_invite`. -/
  asked : List (NodeId × Nat)
  /-- Ghost: who has been given which answers. -/
  answers : List (NodeId × ResponseMessage)

inductive ServiceAct (Gossip IpAddr : Type) where
  /-- A connection is accepted, and its peer is known. -/
  | accept (peer : NodeId) (sourceIp : IpAddr)
  | receive (c : Nat) (request : RequestMessage Gossip)
  | check (c : Nat)
  /-- The request is answered; the size is that of the file, should it be an object. -/
  | answer (c : Nat) (size : IoResult Nat)
  /-- `consume_invite` returns. -/
  | finish (c : Nat)
  | enrol (c : Nat) (saved : IoResult Unit)
  /-- `add_invite` is called from the command line. -/
  | addInvite (secret : Str) (expiresAtMs : Nat)
  | runInvite (t : Nat) (weather : InviteWeather)
  | merge (incoming : List MemberEntry) (saved : IoResult Unit)
  | remove (target : Str) (saved : IoResult Unit)
  /-- The folder changes. -/
  | edit (state : FolderState)

/-- Whom the check of a request lets through. -/
def GroupState.letsThrough {Gossip : Type} (g : GroupState) (peer : NodeId) :
    RequestMessage Gossip → Bool
  | .getPeers _ => g.isKnownMember peer
  | _ => g.isActiveMember peer

section Answer

variable {Gossip IpAddr : Type}

/-- The answer to a request that has been checked: the rest of `handle_request`, and of
`handle_get_object` as far as the header.  An error closes the connection. -/
def answerChecked (s : RpcServer Gossip IpAddr) (peer : NodeId) (sourceIp : IpAddr)
    (size : IoResult Nat) :
    RequestMessage Gossip → Option ResponseMessage × RpcServer Gossip IpAddr
  | .getRoot requestId =>
    (some (.root requestId s.state.tree.rootHash s.state.liveTree.rootHash s.state.lamport), s)
  | .getPeers requestId => (some (.peers requestId s.group.memberList), s)
  | .getNode requestId pfx => (some (.node requestId (s.state.node pfx)), s)
  | .getEntries requestId pfx => (some (.entries requestId (entriesAt s.state pfx)), s)
  | .announce requestId message => (some (.ok requestId),
      { s with events := s.events ++ [.announcement peer message sourceIp] })
  | .getObject requestId contentHash =>
    match s.state.objectFile contentHash, size with
    | none, _ => (some (.error requestId (lit "object " ++ toHex contentHash ++ lit " not found")), s)
    | some _, .error _ => (none, s)
    | some (_, expectedSize), .ok size =>
      if size ≠ expectedSize then
        (some (.error requestId (lit "object " ++ toHex contentHash ++
          lit " changed before transfer: expected " ++ decimal expectedSize ++
          lit " bytes, got " ++ decimal size)), s)
      else (some (.objectHeader requestId size), s)
  | .join _ _ _ => (none, s)

/-- A request that nothing comes in between is handled as `handleRequest` says. -/
theorem handleRequest_eq [Blake3] (s : RpcServer Gossip IpAddr) (peer : NodeId)
    (sourceIp : IpAddr) (weather : JoinWeather) (size : IoResult Nat)
    {request : RequestMessage Gossip}
    (hjoin : ∀ requestId secret joinerId, request ≠ .join requestId secret joinerId)
    (hobject : ∀ requestId contentHash, request ≠ .getObject requestId contentHash) :
    handleRequest s peer sourceIp weather request =
      if s.group.letsThrough peer request then
        (answerChecked s peer sourceIp size request).1.map
          (·, (answerChecked s peer sourceIp size request).2)
      else some (notAMember request.requestId, s) := by
  cases request with
  | join requestId secret joinerId => exact absurd rfl (hjoin requestId secret joinerId)
  | getObject requestId contentHash => exact absurd rfl (hobject requestId contentHash)
  | getPeers requestId =>
    show _ = if s.group.isKnownMember peer then _ else _
    rw [handleRequest, checkKnownMember]
    by_cases hknown : s.group.isKnownMember peer
    · rw [if_pos hknown, if_pos hknown]
      rfl
    · rw [if_neg hknown, if_neg hknown]
      rfl
  | _ =>
    show _ = if s.group.isActiveMember peer then _ else _
    rw [handleRequest, checkMember]
    by_cases hactive : s.group.isActiveMember peer
    · rw [if_pos hactive, if_pos hactive]
      rfl
    · rw [if_neg hactive, if_neg hactive]
      rfl

end Answer

namespace Service

variable {Gossip IpAddr : Type}

def setPc (s : Service Gossip IpAddr) (c : Nat) (pc : RequestPc Gossip) : Service Gossip IpAddr :=
  { s with callers := s.callers.modify c ({ · with pc }) }

/-- The answer is sent, and the connection waits for the next request. -/
def reply (s : Service Gossip IpAddr) (c : Nat) (peer : NodeId) (response : ResponseMessage) :
    Service Gossip IpAddr :=
  { s.setPc c .waiting with answers := s.answers ++ [(peer, response)] }

def setGroup (s : Service Gossip IpAddr) (group : GroupState) : Service Gossip IpAddr :=
  { s with server := { s.server with group }, ledgers := s.ledgers ++ [group] }

def setServer (s : Service Gossip IpAddr) (server : RpcServer Gossip IpAddr) :
    Service Gossip IpAddr := { s with server }

def setInvites (s : Service Gossip IpAddr) (invites : InviteSystem) : Service Gossip IpAddr :=
  { s with invites }

/-- A call on the file of invites. -/
def call (s : Service Gossip IpAddr) (op : InviteOp) : Service Gossip IpAddr :=
  s.setInvites { s.invites with calls := s.invites.calls ++ [⟨op, .loading⟩] }

/-- The call of `consume_invite` for a peer. -/
def ask (s : Service Gossip IpAddr) (peer : NodeId) (secret : Str) : Service Gossip IpAddr :=
  { s.call (.consume secret) with asked := s.asked ++ [(peer, s.invites.calls.length)] }

def offer (s : Service Gossip IpAddr) (incoming : List MemberEntry) : Service Gossip IpAddr :=
  { s with merged := s.merged ++ incoming }

section Steps

variable [Blake3]

def runCheck (s : Service Gossip IpAddr) (c : Nat) (caller : Caller Gossip IpAddr) :
    Option (Service Gossip IpAddr) :=
  match caller.pc with
  | .received (.join requestId secret joinerId) =>
    if joinerId ≠ caller.peer.toText then
      some (s.reply c caller.peer (.joinRejected requestId .joinerIdMismatch))
    else
      some ((s.ask caller.peer secret).setPc c (.consuming requestId s.invites.calls.length))
  | .received request =>
    if s.server.group.letsThrough caller.peer request then some (s.setPc c (.checked request))
    else some (s.reply c caller.peer (notAMember request.requestId))
  | _ => none

def runAnswer (s : Service Gossip IpAddr) (c : Nat) (caller : Caller Gossip IpAddr)
    (size : IoResult Nat) : Option (Service Gossip IpAddr) :=
  match caller.pc with
  | .checked request =>
    match answerChecked s.server caller.peer caller.sourceIp size request with
    | (some response, server) => some ((s.setServer server).reply c caller.peer response)
    | (none, server) => some ((s.setServer server).setPc c .closed)
  | _ => none

def runFinish (s : Service Gossip IpAddr) (c : Nat) (caller : Caller Gossip IpAddr) :
    Option (Service Gossip IpAddr) :=
  match caller.pc with
  | .consuming requestId t =>
    match s.invites.calls[t]? with
    | some ⟨_, .done _ true⟩ => some (s.setPc c (.accepted requestId t))
    | some ⟨_, .done _ false⟩ =>
      some (s.reply c caller.peer (.joinRejected requestId .invalidTicket))
    | some ⟨_, .failed err⟩ =>
      some (s.reply c caller.peer (.joinRejected requestId (.couldNotValidate err)))
    | _ => none
  | _ => none

def runEnrol (s : Service Gossip IpAddr) (c : Nat) (caller : Caller Gossip IpAddr)
    (saved : IoResult Unit) : Option (Service Gossip IpAddr) :=
  match caller.pc with
  | .accepted requestId _ =>
    match s.server.group.addActivePeer caller.peer saved with
    | (.ok _, group) =>
      let s := s.setGroup group
      let s := s.setServer { s.server with events := s.server.events ++ [.peerJoined caller.peer] }
      some (s.reply c caller.peer (.joinAccepted requestId group.memberList))
    | (.error err, group) =>
      some ((s.setGroup group).reply c caller.peer (.joinRejected requestId (.couldNotAddPeer err)))
  | _ => none

def next (s : Service Gossip IpAddr) : ServiceAct Gossip IpAddr → Option (Service Gossip IpAddr)
  | .accept peer sourceIp => some { s with callers := s.callers ++ [⟨peer, sourceIp, .waiting⟩] }
  | .receive c request => s.callers[c]?.bind fun caller ↦
    match caller.pc with
    | .waiting => some (s.setPc c (.received request))
    | _ => none
  | .check c => s.callers[c]?.bind (s.runCheck c)
  | .answer c size => s.callers[c]?.bind (s.runAnswer c · size)
  | .finish c => s.callers[c]?.bind (s.runFinish c)
  | .enrol c saved => s.callers[c]?.bind (s.runEnrol c · saved)
  | .addInvite secret expiresAtMs => some (s.call (.add secret expiresAtMs))
  | .runInvite t weather => (s.invites.next (.run t weather)).map s.setInvites
  | .merge incoming saved =>
    some ((s.offer incoming).setGroup (s.server.group.mergeMembers incoming saved).2)
  | .remove target saved => some (s.setGroup (s.server.group.removePeer target saved).2)
  | .edit state => some (s.setServer { s.server with state })

end Steps

/-! ## What is owed to an invitation -/

section Owed

variable [Blake3]

/-- The peer has joined with an invite that was issued, before it expired. -/
def Invited (s : Service Gossip IpAddr) (peer : NodeId) : Prop :=
  ∃ t secret now i, (peer, t) ∈ s.asked ∧ s.invites.Accepted t secret now ∧
    InviteSystem.Issued s.old s.invites i ∧ i.secretHash = hashSecret secret ∧
    now < i.expiresAtMs

/-- What a ledger says of a node was there at the start, has been merged, or is due to a join. -/
def Vouched (s : Service Gossip IpAddr) (id : Str) (status : MemberStatus) : Prop :=
  (∃ e, s.start.members[id]? = some e ∧ (status = .active → e.status = .active)) ∨
  (∃ e ∈ s.merged, e.id = id ∧ (status = .active → e.status = .active)) ∨
  ∃ peer, peer.toText = id ∧ s.Invited peer

/-- What a peer may be answered: once a member, anything, and else that it is none. -/
def Owed (s : Service Gossip IpAddr) (peer : NodeId) : ResponseMessage → Prop
  | .joinRejected _ _ => True
  | .joinAccepted _ _ => s.Invited peer
  | .peers _ _ => ∃ g ∈ s.ledgers, g.isKnownMember peer
  | response => (∃ requestId, response = notAMember requestId) ∨
      ∃ g ∈ s.ledgers, g.isActiveMember peer

/-- The events that a peer may raise. -/
def Earned (s : Service Gossip IpAddr) : RpcEvent Gossip IpAddr → Prop
  | .peerJoined peer => s.Invited peer
  | .announcement peer _ _ => ∃ g ∈ s.ledgers, g.isActiveMember peer

/-- What the server has found out about the peer of a connection. -/
def Cleared (s : Service Gossip IpAddr) (caller : Caller Gossip IpAddr) : Prop :=
  match caller.pc with
  | .checked request => ∃ g ∈ s.ledgers, g.letsThrough caller.peer request
  | .consuming _ t => (caller.peer, t) ∈ s.asked
  | .accepted _ _ => s.Invited caller.peer
  | _ => True

structure Guarded (s : Service Gossip IpAddr) : Prop where
  traced : s.invites.Traced s.old
  asked : ∀ x ∈ s.asked, ∃ secret pc, s.invites.calls[x.2]? = some ⟨.consume secret, pc⟩
  callers : ∀ caller ∈ s.callers, s.Cleared caller
  answers : ∀ x ∈ s.answers, s.Owed x.1 x.2
  events : ∀ event ∈ s.server.events, s.Earned event
  group_mem : s.server.group ∈ s.ledgers
  keyed : GroupState.Keyed s.server.group.members
  ledgers : ∀ g ∈ s.ledgers, ∀ (id : Str) (e : MemberEntry), g.members[id]? = some e →
    s.Vouched id e.status

/-- The ghosts grow. -/
structure Later (s s' : Service Gossip IpAddr) : Prop where
  start_eq : s'.start = s.start
  old_eq : s'.old = s.old
  ledgers : s.ledgers ⊆ s'.ledgers
  merged : s.merged ⊆ s'.merged
  asked : s.asked ⊆ s'.asked
  calls : InviteSystem.Kept s.invites s'.invites

end Owed

section Later

variable [Blake3] {s s' : Service Gossip IpAddr} {peer : NodeId} {c : Nat}
  {pc : RequestPc Gossip} {response : ResponseMessage} {group : GroupState}
  {server : RpcServer Gossip IpAddr} {invites : InviteSystem} {caller : Caller Gossip IpAddr}

theorem Invited.mono (h : s.Invited peer) (hlater : Later s s') : s'.Invited peer := by
  obtain ⟨t, secret, now, i, hasked, haccepted, hissued, hrest⟩ := h
  refine ⟨t, secret, now, i, hlater.asked hasked, hlater.calls.done haccepted, ?_, hrest⟩
  rw [hlater.old_eq]
  exact hissued.mono hlater.calls

theorem Vouched.mono {id : Str} {status : MemberStatus} (h : s.Vouched id status)
    (hlater : Later s s') : s'.Vouched id status := by
  rcases h with h | ⟨e, he, hrest⟩ | ⟨peer, hid, h⟩
  · rw [← hlater.start_eq] at h
    exact .inl h
  · exact .inr (.inl ⟨e, hlater.merged he, hrest⟩)
  · exact .inr (.inr ⟨peer, hid, h.mono hlater⟩)

omit [Blake3] in
theorem Later.ledger (hlater : Later s s') {P : GroupState → Prop} (h : ∃ g ∈ s.ledgers, P g) :
    ∃ g ∈ s'.ledgers, P g := by
  obtain ⟨g, hg, hP⟩ := h
  exact ⟨g, hlater.ledgers hg, hP⟩

theorem Owed.mono (h : s.Owed peer response) (hlater : Later s s') : s'.Owed peer response := by
  cases response with
  | joinRejected requestId reason => exact trivial
  | joinAccepted requestId members => exact Invited.mono h hlater
  | peers requestId members => exact hlater.ledger h
  | _ => exact h.imp_right hlater.ledger

theorem Earned.mono {event : RpcEvent Gossip IpAddr} (h : s.Earned event) (hlater : Later s s') :
    s'.Earned event := by
  cases event with
  | peerJoined peer => exact Invited.mono h hlater
  | announcement peer message sourceIp => exact hlater.ledger h

theorem Cleared.mono (h : s.Cleared caller) (hlater : Later s s') : s'.Cleared caller := by
  rw [Cleared] at h ⊢
  cases hpc : caller.pc with rw [hpc] at h
  | checked request => exact hlater.ledger h
  | consuming requestId t => exact hlater.asked h
  | accepted requestId t => exact h.mono hlater
  | _ => exact trivial

/-- A step after which what is new is guarded. -/
theorem Guarded.move (h : Guarded s) (hlater : Later s s') (htraced : s'.invites.Traced s'.old)
    (hasked : ∀ x ∈ s'.asked, x ∈ s.asked ∨
      ∃ secret pc, s'.invites.calls[x.2]? = some ⟨.consume secret, pc⟩)
    (hcallers : ∀ caller ∈ s'.callers, caller ∈ s.callers ∨ s'.Cleared caller)
    (hanswers : ∀ x ∈ s'.answers, x ∈ s.answers ∨ s'.Owed x.1 x.2)
    (hevents : ∀ event ∈ s'.server.events, event ∈ s.server.events ∨ s'.Earned event)
    (hgroup : s'.server.group ∈ s'.ledgers) (hkeyed : GroupState.Keyed s'.server.group.members)
    (hledgers : ∀ g ∈ s'.ledgers, g ∈ s.ledgers ∨ ∀ (id : Str) (e : MemberEntry),
      g.members[id]? = some e → s'.Vouched id e.status) : Guarded s' where
  traced := htraced
  asked x hx := by
    rcases hasked x hx with hx | hx
    · obtain ⟨secret, pc, hcall⟩ := h.asked x hx
      obtain ⟨pc', hcall⟩ := hlater.calls.op hcall
      exact ⟨secret, pc', hcall⟩
    · exact hx
  callers caller hcaller :=
    (hcallers caller hcaller).elim (fun hc ↦ (h.callers caller hc).mono hlater) fun hc ↦ hc
  answers x hx := (hanswers x hx).elim (fun hx ↦ (h.answers x hx).mono hlater) fun hx ↦ hx
  events event he := (hevents event he).elim (fun he ↦ (h.events event he).mono hlater) fun he ↦ he
  group_mem := hgroup
  keyed := hkeyed
  ledgers g hg := by
    rcases hledgers g hg with hg | hg
    · intro id e he
      exact (h.ledgers g hg id e he).mono hlater
    · exact hg

omit [Blake3] in
theorem mem_callers_setPc (h : caller ∈ (s.setPc c pc).callers) :
    caller ∈ s.callers ∨ ∃ caller', s.callers[c]? = some caller' ∧ caller = { caller' with pc } := by
  obtain ⟨d, hd⟩ := List.getElem?_of_mem h
  rw [setPc, List.getElem?_modify] at hd
  obtain ⟨caller', hd', heq⟩ := Option.map_eq_some_iff.mp hd
  by_cases hcd : c = d
  · rw [if_pos hcd] at heq
    exact .inr ⟨caller', hcd ▸ hd', heq.symm⟩
  · rw [if_neg hcd] at heq
    exact .inl (heq ▸ List.mem_of_getElem? hd')

theorem Guarded.setPc (h : Guarded s)
    (hcleared : ∀ caller, s.callers[c]? = some caller → s.Cleared { caller with pc }) :
    Guarded (s.setPc c pc) := by
  have hlater : Later s (s.setPc c pc) :=
    ⟨rfl, rfl, fun _ h ↦ h, fun _ h ↦ h, fun _ h ↦ h, .refl _⟩
  refine h.move hlater h.traced (fun _ ↦ .inl) (fun caller hcaller ↦ ?_) (fun _ ↦ .inl)
    (fun _ ↦ .inl) h.group_mem h.keyed fun _ ↦ .inl
  rcases mem_callers_setPc hcaller with hcaller | ⟨caller', hc, rfl⟩
  · exact .inl hcaller
  · exact .inr ((hcleared caller' hc).mono hlater)

theorem Guarded.reply (h : Guarded s) (howed : s.Owed peer response) :
    Guarded (s.reply c peer response) := by
  have hset : Guarded (s.setPc c .waiting) := h.setPc fun _ _ ↦ trivial
  have hlater : Later s (s.reply c peer response) :=
    ⟨rfl, rfl, fun _ h ↦ h, fun _ h ↦ h, fun _ h ↦ h, .refl _⟩
  refine hset.move ⟨rfl, rfl, fun _ h ↦ h, fun _ h ↦ h, fun _ h ↦ h, .refl _⟩ h.traced
    (fun _ ↦ .inl) (fun _ ↦ .inl) (fun x hx ↦ ?_) (fun _ ↦ .inl) h.group_mem h.keyed fun _ ↦ .inl
  rcases List.mem_append.mp hx with hx | hx
  · exact .inl hx
  · obtain rfl := List.mem_singleton.mp hx
    exact .inr (howed.mono hlater)

theorem Guarded.setGroup (h : Guarded s) (hkeyed : GroupState.Keyed group.members)
    (hvouched : ∀ (id : Str) (e : MemberEntry), group.members[id]? = some e →
      s.Vouched id e.status) : Guarded (s.setGroup group) := by
  have hlater : Later s (s.setGroup group) :=
    ⟨rfl, rfl, List.subset_append_left .., fun _ h ↦ h, fun _ h ↦ h, .refl _⟩
  refine h.move hlater h.traced (fun _ ↦ .inl) (fun _ ↦ .inl) (fun _ ↦ .inl) (fun _ ↦ .inl)
    (List.mem_append_right _ (List.mem_singleton_self _)) hkeyed fun g hg ↦ ?_
  rcases List.mem_append.mp hg with hg | hg
  · exact .inl hg
  · obtain rfl := List.mem_singleton.mp hg
    exact .inr fun id e he ↦ (hvouched id e he).mono hlater

theorem Guarded.setServer (h : Guarded s) (hgroup : server.group = s.server.group)
    (hevents : ∀ event ∈ server.events, event ∈ s.server.events ∨ s.Earned event) :
    Guarded (s.setServer server) := by
  have hlater : Later s (s.setServer server) :=
    ⟨rfl, rfl, fun _ h ↦ h, fun _ h ↦ h, fun _ h ↦ h, .refl _⟩
  refine h.move hlater h.traced (fun _ ↦ .inl) (fun _ ↦ .inl) (fun _ ↦ .inl) (fun event he ↦ ?_)
    ?_ ?_ fun _ ↦ .inl
  · exact (hevents event he).imp_right fun he ↦ he.mono hlater
  · show server.group ∈ s.ledgers
    rw [hgroup]
    exact h.group_mem
  · show GroupState.Keyed server.group.members
    rw [hgroup]
    exact h.keyed

theorem Guarded.setInvites (h : Guarded s) (htraced : invites.Traced s.old)
    (hkept : InviteSystem.Kept s.invites invites) : Guarded (s.setInvites invites) :=
  h.move ⟨rfl, rfl, fun _ h ↦ h, fun _ h ↦ h, fun _ h ↦ h, hkept⟩ htraced (fun _ ↦ .inl)
    (fun _ ↦ .inl) (fun _ ↦ .inl) (fun _ ↦ .inl) h.group_mem h.keyed fun _ ↦ .inl

theorem Guarded.call (h : Guarded s) (op : InviteOp) : Guarded (s.call op) :=
  h.setInvites (h.traced.append op) (InviteSystem.kept_append ..)

/-- A peer asks to join. -/
theorem Guarded.ask (h : Guarded s) (peer : NodeId) (secret : Str) :
    Guarded (s.ask peer secret) := by
  refine h.move ⟨rfl, rfl, fun _ h ↦ h, fun _ h ↦ h, List.subset_append_left ..,
    InviteSystem.kept_append ..⟩ (h.traced.append _) (fun x hx ↦ ?_) (fun _ ↦ .inl) (fun _ ↦ .inl)
    (fun _ ↦ .inl) h.group_mem h.keyed fun _ ↦ .inl
  rcases List.mem_append.mp hx with hx | hx
  · exact .inl hx
  · obtain rfl := List.mem_singleton.mp hx
    exact .inr ⟨secret, .loading, List.getElem?_concat_length⟩

end Later

/-! ## Changes of the ledger -/
section Groups

variable [Blake3] {s : Service Gossip IpAddr} {peer : NodeId}

theorem Guarded.vouched (h : Guarded s) {id : Str} {e : MemberEntry}
    (he : s.server.group.members[id]? = some e) : s.Vouched id e.status :=
  h.ledgers _ h.group_mem id e he

theorem Guarded.addActivePeer (h : Guarded s) (hinvited : s.Invited peer) (saved : IoResult Unit) :
    Guarded (s.setGroup (s.server.group.addActivePeer peer saved).2) := by
  rcases GroupState.addActivePeer_cases h.keyed peer saved with heq | ⟨lamport, heq⟩ <;> rw [heq]
  · exact h.setGroup h.keyed fun id e he ↦ h.vouched he
  · refine h.setGroup (h.keyed.insert ⟨peer.toText, .active, lamport⟩) fun id e he ↦ ?_
    rw [OrdMap.getElem?_insert_eq] at he
    split at he
    · next hid => exact .inr (.inr ⟨peer, hid, hinvited⟩)
    · exact h.vouched he

theorem Guarded.removePeer (h : Guarded s) (target : Str) (saved : IoResult Unit) :
    Guarded (s.setGroup (s.server.group.removePeer target saved).2) := by
  have hsame : Guarded (s.setGroup s.server.group) :=
    h.setGroup h.keyed fun id e he ↦ h.vouched he
  rw [GroupState.removePeer]
  split
  · exact hsame
  · next e₀ hfind =>
    split
    · exact hsame
    · refine h.setGroup (h.keyed.insert ⟨e₀.id, .removed, _⟩) fun id e he ↦ ?_
      rw [OrdMap.getElem?_insert_eq] at he
      split at he
      · next hid =>
        obtain rfl := Option.some.inj he
        obtain ⟨k, hk⟩ := OrdMap.mem_values_iff.mp (List.mem_of_find?_eq_some hfind)
        obtain rfl := h.keyed k e₀ hk
        -- a removed entry needs less of a voucher than the one it replaces
        have hany : s.Vouched e₀.id e₀.status := h.vouched hk
        rw [← hid]
        rcases hany with ⟨e, he, -⟩ | ⟨e, he, hid', -⟩ | hjoined
        · exact .inl ⟨e, he, fun hactive ↦ by cases hactive⟩
        · exact .inr (.inl ⟨e, he, hid', fun hactive ↦ by cases hactive⟩)
        · exact .inr (.inr hjoined)
      · exact h.vouched he

omit [Blake3] in
theorem getElem?_foldl_takeOver {members : Members} {incoming : List MemberEntry}
    {id : Str} {e : MemberEntry} (h : (incoming.foldl GroupState.takeOver members)[id]? = some e) :
    members[id]? = some e ∨ e ∈ incoming ∧ e.id = id := by
  induction incoming generalizing members with
  | nil => exact .inl h
  | cons e' incoming ih =>
    rcases ih h with h | ⟨hmem, hid⟩
    · rw [GroupState.takeOver] at h
      split at h
      · rw [OrdMap.getElem?_insert_eq] at h
        split at h
        · next hid =>
          obtain rfl := Option.some.inj h
          exact .inr ⟨List.mem_cons_self, hid⟩
        · exact .inl h
      · exact .inl h
    · exact .inr ⟨List.mem_cons_of_mem _ hmem, hid⟩

theorem Guarded.mergeMembers (h : Guarded s) (incoming : List MemberEntry) (saved : IoResult Unit) :
    Guarded ((s.offer incoming).setGroup (s.server.group.mergeMembers incoming saved).2) := by
  have hlater : Later s (s.offer incoming) :=
    ⟨rfl, rfl, fun _ h ↦ h, List.subset_append_left .., fun _ h ↦ h, .refl _⟩
  have hoffer : Guarded (s.offer incoming) :=
    h.move hlater h.traced (fun _ ↦ .inl) (fun _ ↦ .inl) (fun _ ↦ .inl) (fun _ ↦ .inl)
      h.group_mem h.keyed fun _ ↦ .inl
  rw [GroupState.mergeMembers_snd]
  refine hoffer.setGroup (h.keyed.foldl_takeOver incoming) fun id e he ↦ ?_
  rcases getElem?_foldl_takeOver he with he | ⟨hmem, hid⟩
  · exact (h.vouched he).mono hlater
  · exact .inr (.inl ⟨e, List.mem_append_right _ hmem, hid, fun hactive ↦ hactive⟩)

end Groups

/-! ## The steps -/

section Steps

variable [Blake3] {s s' : Service Gossip IpAddr} {c : Nat} {caller : Caller Gossip IpAddr}
  {peer : NodeId} {request : RequestMessage Gossip} {response : ResponseMessage}

theorem Guarded.runCheck (h : Guarded s) (hcaller : s.callers[c]? = some caller)
    (hrun : s.runCheck c caller = some s') : Guarded s' := by
  rw [Service.runCheck] at hrun
  split at hrun
  · next requestId secret joinerId hpc =>
    split at hrun <;> obtain rfl := Option.some.inj hrun
    · exact h.reply trivial
    · refine (h.ask caller.peer secret).setPc fun caller' hc ↦ ?_
      obtain rfl := Option.some.inj (hcaller.symm.trans hc)
      exact List.mem_append_right _ (List.mem_singleton_self _)
  · next request hjoin hpc =>
    split at hrun <;> obtain rfl := Option.some.inj hrun
    · next hthrough =>
      refine h.setPc fun caller' hc ↦ ?_
      obtain rfl := Option.some.inj (hcaller.symm.trans hc)
      exact ⟨_, h.group_mem, hthrough⟩
    · exact h.reply (.inl ⟨_, rfl⟩)
  · cases hrun

omit [Blake3] in
/-- Only an announcement leaves something behind. -/
theorem answerChecked_snd (server : RpcServer Gossip IpAddr) (peer : NodeId) (sourceIp : IpAddr)
    (size : IoResult Nat) (request : RequestMessage Gossip) :
    (answerChecked server peer sourceIp size request).2 = server ∨
      ∃ requestId message, request = .announce requestId message ∧
        (answerChecked server peer sourceIp size request).2 =
          { server with events := server.events ++ [.announcement peer message sourceIp] } := by
  cases request with
  | announce requestId message => exact .inr ⟨requestId, message, rfl, rfl⟩
  | getObject requestId contentHash =>
    dsimp only [answerChecked]
    split
    · exact .inl rfl
    · exact .inl rfl
    · split <;> exact .inl rfl
  | _ => exact .inl rfl

theorem owed_answerChecked {sourceIp : IpAddr} {size : IoResult Nat}
    (hthrough : ∃ g ∈ s.ledgers, g.letsThrough peer request)
    (hanswer : (answerChecked s.server peer sourceIp size request).1 = some response) :
    s.Owed peer response := by
  cases request with
  | join requestId secret joinerId => cases hanswer
  | getPeers requestId =>
    obtain rfl := Option.some.inj hanswer
    exact hthrough
  | getObject requestId contentHash =>
    dsimp only [answerChecked] at hanswer
    split at hanswer
    · obtain rfl := Option.some.inj hanswer
      exact .inr hthrough
    · cases hanswer
    · split at hanswer <;> obtain rfl := Option.some.inj hanswer
      · exact .inr hthrough
      · exact .inr hthrough
  | _ =>
    obtain rfl := Option.some.inj hanswer
    exact .inr hthrough

theorem Guarded.runAnswer (h : Guarded s) (hcaller : s.callers[c]? = some caller)
    {size : IoResult Nat} (hrun : s.runAnswer c caller size = some s') : Guarded s' := by
  have hcleared := h.callers caller (List.mem_of_getElem? hcaller)
  rw [Service.runAnswer] at hrun
  rw [Cleared] at hcleared
  cases hpc : caller.pc with rw [hpc] at hrun hcleared
  | checked request =>
    have hserver : Guarded (s.setServer
        (answerChecked s.server caller.peer caller.sourceIp size request).2) := by
      rcases answerChecked_snd s.server caller.peer caller.sourceIp size request with
        heq | ⟨requestId, message, rfl, heq⟩ <;> rw [heq]
      · exact h.setServer rfl fun _ ↦ .inl
      · refine h.setServer rfl fun event he ↦ ?_
        rcases List.mem_append.mp he with he | he
        · exact .inl he
        · obtain rfl := List.mem_singleton.mp he
          exact .inr hcleared
    have howed {response : ResponseMessage} := @owed_answerChecked _ _ _ s caller.peer request
      response caller.sourceIp size hcleared
    dsimp only at hrun
    generalize answerChecked s.server caller.peer caller.sourceIp size request = answer at *
    obtain ⟨_ | response, server⟩ := answer
    · obtain rfl := Option.some.inj hrun
      exact hserver.setPc fun _ _ ↦ trivial
    · obtain rfl := Option.some.inj hrun
      refine hserver.reply ((howed rfl).mono ?_)
      exact ⟨rfl, rfl, fun _ h ↦ h, fun _ h ↦ h, fun _ h ↦ h, .refl _⟩
  | _ => cases hrun

theorem Guarded.runFinish (h : Guarded s) (hcaller : s.callers[c]? = some caller)
    (hrun : s.runFinish c caller = some s') : Guarded s' := by
  have hcleared := h.callers caller (List.mem_of_getElem? hcaller)
  rw [Service.runFinish] at hrun
  rw [Cleared] at hcleared
  cases hpc : caller.pc with rw [hpc] at hrun hcleared
  | consuming requestId t =>
    obtain ⟨secret, pc, hcall⟩ := h.asked _ hcleared
    dsimp only at hrun hcall
    rw [hcall] at hrun
    split at hrun
    · next op now heq =>
      obtain ⟨rfl, rfl⟩ := InviteCall.mk.inj (Option.some.inj heq)
      obtain rfl := Option.some.inj hrun
      obtain ⟨i, hissued, hrest⟩ := h.traced.found hcall
      refine h.setPc fun caller' hc ↦ ?_
      obtain rfl := Option.some.inj (hcaller.symm.trans hc)
      exact ⟨t, secret, now, i, hcleared, hcall, hissued, hrest⟩
    · obtain rfl := Option.some.inj hrun
      exact h.reply trivial
    · obtain rfl := Option.some.inj hrun
      exact h.reply trivial
    · cases hrun
  | _ => cases hrun

theorem Guarded.runEnrol (h : Guarded s) (hcaller : s.callers[c]? = some caller)
    {saved : IoResult Unit} (hrun : s.runEnrol c caller saved = some s') : Guarded s' := by
  have hcleared := h.callers caller (List.mem_of_getElem? hcaller)
  rw [Service.runEnrol] at hrun
  rw [Cleared] at hcleared
  cases hpc : caller.pc with rw [hpc] at hrun hcleared
  | accepted requestId t =>
    have hgroup := h.addActivePeer hcleared saved
    have hinvited : Invited (s.setGroup (s.server.group.addActivePeer caller.peer saved).2)
        caller.peer :=
      hcleared.mono ⟨rfl, rfl, List.subset_append_left .., fun _ h ↦ h, fun _ h ↦ h, .refl _⟩
    dsimp only at hrun
    generalize s.server.group.addActivePeer caller.peer saved = added at *
    obtain ⟨_ | _, group⟩ := added <;> obtain rfl := Option.some.inj hrun
    · exact hgroup.reply trivial
    · refine Guarded.reply (hgroup.setServer rfl fun event he ↦ ?_) ?_
      · rcases List.mem_append.mp he with he | he
        · exact .inl he
        · obtain rfl := List.mem_singleton.mp he
          exact .inr hinvited
      · exact hinvited.mono ⟨rfl, rfl, fun _ h ↦ h, fun _ h ↦ h, fun _ h ↦ h, .refl _⟩
  | _ => cases hrun

theorem Guarded.next (h : Guarded s) {act : ServiceAct Gossip IpAddr}
    (hnext : s.next act = some s') : Guarded s' := by
  cases act with
  | accept peer sourceIp =>
    obtain rfl := Option.some.inj hnext
    refine h.move ⟨rfl, rfl, fun _ h ↦ h, fun _ h ↦ h, fun _ h ↦ h, .refl _⟩ h.traced
      (fun _ ↦ .inl) (fun caller hcaller ↦ ?_) (fun _ ↦ .inl) (fun _ ↦ .inl) h.group_mem h.keyed
      fun _ ↦ .inl
    rcases List.mem_append.mp hcaller with hcaller | hcaller
    · exact .inl hcaller
    · obtain rfl := List.mem_singleton.mp hcaller
      exact .inr trivial
  | receive c request =>
    obtain ⟨caller, hcaller, hrun⟩ := Option.bind_eq_some_iff.mp hnext
    split at hrun
    · obtain rfl := Option.some.inj hrun
      exact h.setPc fun _ _ ↦ trivial
    · cases hrun
  | check c =>
    obtain ⟨caller, hcaller, hrun⟩ := Option.bind_eq_some_iff.mp hnext
    exact h.runCheck hcaller hrun
  | answer c size =>
    obtain ⟨caller, hcaller, hrun⟩ := Option.bind_eq_some_iff.mp hnext
    exact h.runAnswer hcaller hrun
  | finish c =>
    obtain ⟨caller, hcaller, hrun⟩ := Option.bind_eq_some_iff.mp hnext
    exact h.runFinish hcaller hrun
  | enrol c saved =>
    obtain ⟨caller, hcaller, hrun⟩ := Option.bind_eq_some_iff.mp hnext
    exact h.runEnrol hcaller hrun
  | addInvite secret expiresAtMs =>
    obtain rfl := Option.some.inj hnext
    exact h.call _
  | runInvite t weather =>
    obtain ⟨invites, hinvites, rfl⟩ := Option.map_eq_some_iff.mp hnext
    obtain ⟨call, hcall, hrun⟩ := Option.bind_eq_some_iff.mp hinvites
    obtain ⟨htraced, hkept⟩ := h.traced.runCall hcall hrun
    exact h.setInvites htraced hkept
  | merge incoming saved =>
    obtain rfl := Option.some.inj hnext
    exact h.mergeMembers incoming saved
  | remove target saved =>
    obtain rfl := Option.some.inj hnext
    exact h.removePeer target saved
  | edit state =>
    obtain rfl := Option.some.inj hnext
    exact h.setServer rfl fun _ ↦ .inl

/-! ## Every run -/

/-- The server has been started: there are no connections yet. -/
structure Fresh (s : Service Gossip IpAddr) : Prop where
  keyed : GroupState.Keyed s.server.group.members
  events_eq : s.server.events = []
  callers_eq : s.callers = []
  calls_eq : s.invites.calls = []
  start_eq : s.start = s.server.group
  old_eq : s.old = s.invites.invites
  ledgers_eq : s.ledgers = [s.server.group]
  merged_eq : s.merged = []
  asked_eq : s.asked = []
  answers_eq : s.answers = []

theorem Fresh.guarded (h : Fresh s) : Guarded s where
  traced := by
    refine ⟨fun i hi ↦ .inl (h.old_eq ▸ hi), fun ht ↦ ?_, fun ha ↦ ?_⟩
    · rw [h.calls_eq] at ht
      cases ht
    · rw [InviteSystem.Accepted, h.calls_eq] at ha
      cases ha
  asked x hx := by
    rw [h.asked_eq] at hx
    cases hx
  callers caller hcaller := by
    rw [h.callers_eq] at hcaller
    cases hcaller
  answers x hx := by
    rw [h.answers_eq] at hx
    cases hx
  events event he := by
    rw [h.events_eq] at he
    cases he
  group_mem := by
    rw [h.ledgers_eq]
    exact List.mem_singleton_self _
  keyed := h.keyed
  ledgers g hg id e he := by
    rw [h.ledgers_eq] at hg
    obtain rfl := List.mem_singleton.mp hg
    exact .inl ⟨e, h.start_eq ▸ he, fun hactive ↦ hactive⟩

variable (Gossip IpAddr) in
/-- The machine of the server. -/
def machine : Machine (Service Gossip IpAddr) := .ofActions Fresh next fun _ _ ↦ True

end Steps

/-! ### An invitation -/

section Lobby

variable [Blake3]

/-- The node 2 has a group of its own, and no peers. -/
def lobby : Service Unit Unit :=
  let group := oneMember (GroupState.exampleId 2)
  ⟨⟨(Node.blank [] [] ()).folder, group, []⟩, InviteSystem.noInvites, [], group, [], [group], [], [], []⟩

/-- The next request of a connection is handled, with what comes of the file of invites. -/
def handling (c : Nat) (request : RequestMessage Unit) (runs : List Nat) :
    List (ServiceAct Unit Unit) :=
  [.receive c request, .check c] ++ runs.map (.runInvite · InviteSystem.fair)

/-- An invite is issued.  The node 3 asks for the root and is refused; the node 1 joins, and is
told who is there; then the node 3 comes with the same invite. -/
def oneInvite : List (ServiceAct Unit Unit) :=
  .addInvite (lit "s") 9 :: [0, 0, 0].map (.runInvite · InviteSystem.fair) ++ [
    .accept (GroupState.exampleId 1) (), .accept (GroupState.exampleId 3) ()] ++
  handling 1 (.getRoot 1) [] ++
  handling 0 (.join 2 (lit "s") (GroupState.exampleId 1).toText) [1, 1, 1] ++
  [.finish 0, .enrol 0 (.ok ())] ++
  handling 0 (.getPeers 3) [] ++ [.answer 0 (.ok 0)] ++
  handling 1 (.join 4 (lit "s") (GroupState.exampleId 3).toText) [2, 2] ++ [.finish 1]

end Lobby

end Service

end Lilsync
