import Lilsync.Lib.Calls
import Lilsync.Rpc.Transfer

/-!
# Calls to a peer

The client of `rpc.rs`.  Every task that wants something of a peer takes a connection
from the pool, or makes one, sends its request, and reads what comes.  If that goes
wrong on a pooled connection, `round_trip` tries again on a new one.

A pooled connection is used for one call after the other.  So what a call reads is the
answer to its own request only if the call before it has left nothing behind; a
transfer of a file that has grown would.
-/

namespace Lilsync

open Lilsync.Lib Lilsync.Lib.Proc

/-! ## What a call makes of a response -/

/-- Why a call fails. -/
inductive CallError where
  | fromPeer (message : Str)
  | rejected (reason : JoinReason)
  /-- `unexpected {call} response from {peer}: {response:?}` -/
  | unexpected (call : Str) (peer : NodeId) (response : ResponseMessage)

section Accept

variable {α : Type}

/-- The `match` on the response: `pick` says which response the call wants, and what it makes of
it.  Both that and an error count only with the id of the request. -/
def acceptResponse (call : Str) (peer : NodeId) (requestId : Nat)
    (pick : ResponseMessage → Option (Nat × Except CallError α)) (response : ResponseMessage) :
    Except CallError α :=
  let unexpected : Except CallError α := .error (.unexpected call peer response)
  match pick response, response with
  | some (actual, result), _ => if actual = requestId then result else unexpected
  | none, .error actual message =>
    if actual = requestId then .error (.fromPeer message) else unexpected
  | none, _ => unexpected

/-- `get_root`. -/
def getRoot (peer : NodeId) (requestId : Nat) :
    ResponseMessage → Except CallError (Hash × Hash × Nat) :=
  acceptResponse (lit "GetRoot") peer requestId fun
    | .root actual stateRoot liveRoot lamport => some (actual, .ok (stateRoot, liveRoot, lamport))
    | _ => none

/-- `get_peers`. -/
def getPeers (peer : NodeId) (requestId : Nat) :
    ResponseMessage → Except CallError (List MemberEntry) :=
  acceptResponse (lit "GetPeers") peer requestId fun
    | .peers actual members => some (actual, .ok members)
    | _ => none

/-- `get_node`. -/
def getNode (peer : NodeId) (requestId : Nat) :
    ResponseMessage → Except CallError (Option TreeNode) :=
  acceptResponse (lit "GetNode") peer requestId fun
    | .node actual node => some (actual, .ok node)
    | _ => none

/-- `get_entries`. -/
def getEntries (peer : NodeId) (requestId : Nat) :
    ResponseMessage → Except CallError (List Entry) :=
  acceptResponse (lit "GetEntries") peer requestId fun
    | .entries actual entries => some (actual, .ok entries)
    | _ => none

/-- `join_group`. -/
def joinGroup (peer : NodeId) (requestId : Nat) :
    ResponseMessage → Except CallError (List MemberEntry) :=
  acceptResponse (lit "Join") peer requestId fun
    | .joinAccepted actual members => some (actual, .ok members)
    | .joinRejected actual reason => some (actual, .error (.rejected reason))
    | _ => none

/-- `announce`. -/
def announce (peer : NodeId) (requestId : Nat) : ResponseMessage → Except CallError Unit :=
  acceptResponse (lit "Announce") peer requestId fun
    | .ok actual => some (actual, .ok ())
    | _ => none

/-- What the server says to somebody who may not ask. -/
def refused : Except CallError α := .error (.fromPeer (lit "peer is not a group member"))

variable {call : Str} {peer : NodeId} {requestId : Nat}
  {pick : ResponseMessage → Option (Nat × Except CallError α)} {response : ResponseMessage}

theorem acceptResponse_of_pick {result : Except CallError α}
    (h : pick response = some (requestId, result)) :
    acceptResponse call peer requestId pick response = result := by
  simp only [acceptResponse, h]
  exact if_pos trivial

theorem acceptResponse_notAMember (h : pick (notAMember requestId) = none) :
    acceptResponse call peer requestId pick (notAMember requestId) = refused := by
  rw [notAMember] at h ⊢
  simp only [acceptResponse, h]
  exact if_pos trivial

end Accept

/-! ## Servers and clients -/

section Calls

variable {Gossip IpAddr : Type} [Blake3]

/-- What the server of a peer sends in answer to a request: what `handle_request` returns, or an
object, which must not turn out longer than the index says.  Either may break off. -/
def Answers (wire : Wire Gossip) (self : NodeId)
    (serving : NodeId → RpcServer Gossip IpAddr → Prop) (peer : NodeId) :
    RequestMessage Gossip → List UInt8 → Prop
  | .getObject requestId contentHash, bytes =>
    ∃ (s : RpcServer Gossip IpAddr) (files : PathBuf → ServedFile) (turns : Nat)
      (server : NoiseConnection), serving peer s ∧
      (∀ path size, s.state.objectFile contentHash = some (path, size) →
        ((files path).served turns 0).length ≤ size) ∧
      bytes = ((exec (handleGetObject wire s.state s.group self requestId contentHash files turns)
        server).2.outbound.drop server.outbound.length).flatten
  | request, bytes =>
    ∃ (s s' : RpcServer Gossip IpAddr) (sourceIp : IpAddr) (weather : JoinWeather)
      (response : ResponseMessage) (server : NoiseConnection), serving peer s ∧
      handleRequest s self sourceIp weather request = some (response, s') ∧
      bytes = ((exec (sendJson (wire.responseToVec response)) server).2.outbound.drop
        server.outbound.length).flatten

/-- What a call reads, of what is there to read, and what it leaves: a response, and what
`get_object_to_file` wants after it. -/
def Hears (wire : Wire Gossip) :
    RequestMessage Gossip → List UInt8 → ResponseMessage → List UInt8 → Prop
  | .getObject requestId contentHash, front, response, rest =>
    ∃ (peer : NodeId) (expectedSize : Nat) (connected : IoResult NoiseConnection)
      (weather : DestWeather) (client client₁ client' : RpcClient),
      response = .objectHeader requestId expectedSize ∧
      exec (checkout connected) client = (.ok (), client₁) ∧ client₁.conn.unread = front ∧
      exec (getObjectToFile wire peer requestId contentHash expectedSize connected weather)
        client = (.ok (), client') ∧ client'.conn.unread = rest
  | _, front, response, rest =>
    ∃ conn conn' : NoiseConnection, conn.unread = front ∧
      exec (recvJson wire.responseFromSlice) conn = (.ok response, conn') ∧ conn'.unread = rest

variable {wire : Wire Gossip} {self : NodeId} {serving : NodeId → RpcServer Gossip IpAddr → Prop}
  {peer : NodeId} {request : RequestMessage Gossip} {answer front rest : List UInt8}
  {response : ResponseMessage}

/-! ## A call reads all of an answer -/

/-- What a call reads after the frame of a response. -/
def Wants : RequestMessage Gossip → ResponseMessage → List UInt8 → Prop
  | .getObject requestId _, response, more => response = .objectHeader requestId more.length
  | _, _, more => more = []

/-- What is read begins with a frame. -/
theorem Hears.exists_frame (h : Hears wire request front response rest) :
    ∃ blob more, wire.responseFromSlice blob = .ok response ∧ blob.length < 2 ^ 64 ∧
      front = frame blob ++ (more ++ rest) ∧ Wants request response more := by
  cases request with
  | getObject requestId contentHash =>
    obtain ⟨peer, size, connected, weather, client, client₁, client', rfl, hcheckout, rfl, hexec,
      rfl⟩ := h
    obtain ⟨_, client₂, blob, content, hcheckout', hread, hlen, hunread, -, hsize, -, -, -, rfl⟩ :=
      of_exec_getObjectToFile hexec
    obtain rfl : client₁ = _ := (Prod.mk.inj (hcheckout.symm.trans hcheckout')).2
    have hconn : client₂.checkin.conn = client₂.conn := by
      rw [RpcClient.checkin]
      split <;> rfl
    refine ⟨blob, content, hread, hlen, ?_, ?_⟩
    · rw [hconn, hunread]
    · rw [Wants, hsize]
  | _ =>
    obtain ⟨conn, conn', rfl, hexec, rfl⟩ := h
    obtain ⟨blob, hread, hlen, hunread, -⟩ := of_exec_recvJson hexec
    exact ⟨blob, [], hread, hlen, hunread, rfl⟩

/-- The server has handled the request, with this response. -/
def Handled (self : NodeId) (serving : NodeId → RpcServer Gossip IpAddr → Prop) (peer : NodeId)
    (request : RequestMessage Gossip) (response : ResponseMessage) : Prop :=
  ∃ (s s' : RpcServer Gossip IpAddr) (sourceIp : IpAddr) (weather : JoinWeather),
    serving peer s ∧ handleRequest s self sourceIp weather request = some (response, s')

/-- What a server sends with the frame of a response. -/
def Offers (self : NodeId) (serving : NodeId → RpcServer Gossip IpAddr → Prop) (peer : NodeId) :
    RequestMessage Gossip → ResponseMessage → List UInt8 → Prop
  | .getObject requestId _, response, tail =>
    tail = [] ∧ (∃ message, response = .error requestId message) ∨
      ∃ size, response = .objectHeader requestId size ∧ tail.length ≤ size
  | request, response, tail => tail = [] ∧ Handled self serving peer request response

/-- An answer is a frame, and after the header of an object no more than it announces; or it
breaks off within the first frame. -/
theorem Answers.cases (h : Answers wire self serving peer request answer) :
    (∀ blob : List UInt8, blob.length < 2 ^ 64 → ¬ frame blob <+: answer) ∨
    ∃ response blob tail, wire.responseToVec response = .ok blob ∧ blob.length ≤ maxBlobBytes ∧
      answer = frame blob ++ tail ∧ Offers self serving peer request response tail := by
  cases request with
  | getObject requestId contentHash =>
    obtain ⟨s, files, turns, server, -, hbound, rfl⟩ := h
    obtain ⟨cs, hsent, -, hcases⟩ :=
      exec_handleGetObject wire s.state s.group self requestId contentHash files turns server
    rw [hsent, NoiseConnection.sent, List.drop_left]
    rcases hcases with htorn | ⟨message, blob, hblob, hlen, rfl⟩ |
      ⟨path, size, blob, cs', hobject, hblob, hlen, rfl, hserved, -⟩
    · exact .inl htorn
    · refine .inr ⟨.error requestId message, blob, [], hblob, hlen, ?_, .inl ⟨rfl, message, rfl⟩⟩
      rw [flatten_blobChunks, List.append_nil]
    · refine .inr ⟨.objectHeader requestId size, blob, cs'.flatten, hblob, hlen, ?_,
        .inr ⟨size, rfl, hserved.length_le.trans (hbound path size hobject)⟩⟩
      rw [List.flatten_append, flatten_blobChunks]
  | _ =>
    obtain ⟨s, s', sourceIp, weather, response, server, hserving, hhandled, rfl⟩ := h
    rcases exec_sendJson_cases (wire.responseToVec response) server with
      ⟨blob, hblob, hlen, hsent⟩ | ⟨err, cs, -, htorn, hsent⟩
    · refine .inr ⟨response, blob, [], hblob, hlen, ?_, rfl,
        s, s', sourceIp, weather, hserving, hhandled⟩
      rw [hsent, NoiseConnection.sent, List.drop_left, flatten_blobChunks, List.append_nil]
    · rw [hsent, NoiseConnection.sent, List.drop_left]
      exact .inl htorn

/-- What is read of an answer is its frame. -/
theorem Answers.reads (hwire : wire.ReadsBack) (h : Answers wire self serving peer request answer)
    (hpre : front <+: answer) (hreads : Hears wire request front response rest) :
    front = answer ∧ rest = [] ∧ ∃ tail, Offers self serving peer request response tail := by
  obtain ⟨blob, more, hread, hlen, rfl, hmore⟩ := hreads.exists_frame
  have hfront : frame blob <+: answer := (List.prefix_append _ _).trans hpre
  rcases h.cases with htorn | ⟨response', blob', tail, hblob, hlen', rfl, htail⟩
  · exact absurd hfront (htorn blob hlen)
  obtain rfl := eq_of_frame_append hlen (hlen'.trans_lt (by decide)) hfront
  obtain rfl : response' = response :=
    Except.ok.inj ((hwire response' blob hblob).symm.trans hread)
  -- what follows the frame is at most what the call wants of it
  have hrest : more ++ rest <+: tail := (List.prefix_append_right_inj _).mp hpre
  have hle := hrest.length_le
  rw [List.length_append] at hle
  cases request with
  | getObject requestId contentHash =>
    have hoffers := htail
    rw [Wants] at hmore
    subst hmore
    rcases htail with ⟨-, message, herror⟩ | ⟨size, hsize, htail⟩
    · cases herror
    obtain ⟨-, rfl⟩ := ResponseMessage.objectHeader.inj hsize
    have hnil : rest = [] := List.eq_nil_of_length_eq_zero (by omega)
    subst hnil
    refine ⟨congrArg _ (hrest.eq_of_length ?_), rfl, tail, hoffers⟩
    rw [List.length_append]
    exact le_antisymm hle htail
  | _ =>
    obtain ⟨rfl, hhandled⟩ := htail
    rw [List.length_nil] at hle
    have hnil : rest = [] := List.eq_nil_of_length_eq_zero (by omega)
    have hmore' : more = [] := hmore
    subst hnil hmore'
    exact ⟨rfl, rfl, [], rfl, hhandled⟩

theorem exact_calls (hwire : wire.ReadsBack) :
    Calls.Exact (Answers wire self serving) (Hears wire) where
  not_nil request response rest h := by
    obtain ⟨blob, more, -, -, hfront, -⟩ := h.exists_frame
    have hlen := congrArg List.length hfront
    rw [List.length_append, frame, List.length_append, length_toBeBytes, List.length_nil] at hlen
    omega
  whole peer request answer front response rest hanswer hpre hreads :=
    have h := hanswer.reads hwire hpre hreads
    ⟨h.1, h.2.1⟩

/-! ## Every call -/

/-- What a call returns is what the server of the peer had, at some moment, for this very
request. -/
def Told (self : NodeId) (serving : NodeId → RpcServer Gossip IpAddr → Prop) (peer : NodeId) :
    RequestMessage Gossip → ResponseMessage → Prop
  | .getRoot requestId, response => ∃ s, serving peer s ∧ getRoot peer requestId response =
      if s.group.isActiveMember self then
        .ok (s.state.tree.rootHash, s.state.liveTree.rootHash, s.state.lamport)
      else refused
  | .getPeers requestId, response => ∃ s, serving peer s ∧ getPeers peer requestId response =
      if s.group.isKnownMember self then .ok s.group.memberList else refused
  | .getNode requestId pfx, response => ∃ s, serving peer s ∧ getNode peer requestId response =
      if s.group.isActiveMember self then .ok (s.state.node pfx) else refused
  | .getEntries requestId pfx, response => ∃ s, serving peer s ∧
      getEntries peer requestId response =
        if s.group.isActiveMember self then .ok (entriesAt s.state pfx) else refused
  | .announce requestId _, response => ∃ s, serving peer s ∧ announce peer requestId response =
      if s.group.isActiveMember self then .ok () else refused
  | .join requestId secret joinerId, response => ∃ s s' sourceIp weather, serving peer s ∧
      handleRequest s self sourceIp weather (.join requestId secret joinerId) =
        some (response, s') ∧
      (joinGroup peer requestId response = .ok s'.group.memberList ∨
        ∃ reason, joinGroup peer requestId response = .error (.rejected reason))
  | .getObject requestId _, response => ∃ size, response = .objectHeader requestId size

theorem told_of_handled (hobject : ∀ requestId contentHash,
      request ≠ .getObject requestId contentHash)
    (h : Handled self serving peer request response) : Told self serving peer request response := by
  obtain ⟨s, s', sourceIp, weather, hserving, hhandled⟩ := h
  cases request with
  | getRoot requestId | getNode requestId _ | getEntries requestId _ | announce requestId _ =>
    refine ⟨s, hserving, ?_⟩
    rw [handleRequest, checkMember] at hhandled
    by_cases hactive : s.group.isActiveMember self
    · rw [if_pos hactive] at hhandled ⊢
      obtain ⟨rfl, -⟩ := Prod.mk.inj (Option.some.inj hhandled)
      exact acceptResponse_of_pick rfl
    · rw [if_neg hactive] at hhandled ⊢
      obtain ⟨rfl, -⟩ := Prod.mk.inj (Option.some.inj hhandled)
      exact acceptResponse_notAMember rfl
  | getPeers requestId =>
    refine ⟨s, hserving, ?_⟩
    rw [handleRequest, checkKnownMember] at hhandled
    by_cases hknown : s.group.isKnownMember self
    · rw [if_pos hknown] at hhandled ⊢
      obtain ⟨rfl, -⟩ := Prod.mk.inj (Option.some.inj hhandled)
      exact acceptResponse_of_pick rfl
    · rw [if_neg hknown] at hhandled ⊢
      obtain ⟨rfl, -⟩ := Prod.mk.inj (Option.some.inj hhandled)
      exact acceptResponse_notAMember rfl
  | join requestId secret joinerId =>
    refine ⟨s, s', sourceIp, weather, hserving, hhandled, ?_⟩
    rw [handleRequest] at hhandled
    split at hhandled
    · obtain ⟨rfl, -⟩ := Prod.mk.inj (Option.some.inj hhandled)
      exact .inr ⟨_, acceptResponse_of_pick rfl⟩
    split at hhandled
    · split at hhandled <;> obtain ⟨rfl, rfl⟩ := Prod.mk.inj (Option.some.inj hhandled)
      · exact .inl (acceptResponse_of_pick rfl)
      · exact .inr ⟨_, acceptResponse_of_pick rfl⟩
    · obtain ⟨rfl, -⟩ := Prod.mk.inj (Option.some.inj hhandled)
      exact .inr ⟨_, acceptResponse_of_pick rfl⟩
    · obtain ⟨rfl, -⟩ := Prod.mk.inj (Option.some.inj hhandled)
      exact .inr ⟨_, acceptResponse_of_pick rfl⟩
  | getObject requestId contentHash => exact absurd rfl (hobject requestId contentHash)

end Calls

/-! ### A call -/

/-- The answer to an announcement, in JSON. -/
def okResponse : List UInt8 := lit "\x7b\"Ok\":\x7b\"request_id\":1\x7d\x7d"

/-- JSON, as far as that answer needs it. -/
def okWire : Wire Unit where
  requestToVec _ := .error (.ofKind .other)
  responseToVec
    | .ok 1 => .ok okResponse
    | _ => .error (.ofKind .other)
  responseFromSlice bytes :=
    if bytes = okResponse then .ok (.ok 1) else .error (.ofKind .other)

theorem readsBack_okWire : okWire.ReadsBack := by
  intro response bytes h
  dsimp only [okWire] at h
  split at h <;> cases h
  simp only [okWire, if_pos]

section Pair

variable [Blake3]

/-- The server of the node 2, of whose group the node 1 is a member. -/
def pairServer : RpcServer Unit Unit :=
  ⟨oneByteFolder, oneMember (GroupState.exampleId 1), []⟩

/-- The node 1 calls the node 2. -/
abbrev pairCalls : Machine (Calls.State NodeId (RequestMessage Unit) UInt8 ResponseMessage) :=
  Calls.machine poolSize (Answers okWire (GroupState.exampleId 1) fun _ s ↦ s = pairServer)
    (Hears okWire)

theorem answers_pair (h : (oneMember (GroupState.exampleId 1)).isActiveMember
    (GroupState.exampleId 1)) : Answers okWire (GroupState.exampleId 1)
      (fun _ s ↦ s = pairServer) (GroupState.exampleId 2) (.announce 1 ()) (frame okResponse) := by
  refine ⟨pairServer, { pairServer with events := [.announcement (GroupState.exampleId 1) () ()] },
    (), ⟨.ok [], .ok 0, .ok (), .ok ()⟩, .ok 1, .fresh [], rfl, ?_, ?_⟩
  · rw [handleRequest, checkMember, if_pos (show pairServer.group.isActiveMember _ from h)]
    rfl
  · have hsend := @exec_sendBlob (.fresh []) okResponse (by decide +kernel) fun _ ↦ rfl
    rw [show okWire.responseToVec (.ok 1) = .ok okResponse from rfl, sendJson, hsend]
    exact (flatten_blobChunks okResponse).symm

theorem reads_pair : Hears okWire (.announce 1 ()) (frame okResponse) (.ok 1) [] := by
  have hfresh : (NoiseConnection.fresh [.ok (frame okResponse)]).unread = frame okResponse := by
    decide +kernel
  obtain ⟨conn', hexec, hunread, -⟩ := @exec_recvBlob (.fresh [.ok (frame okResponse)])
    maxBlobBytes okResponse [] (by decide +kernel) (by decide +kernel)
    (hfresh.trans (List.append_nil _).symm)
  refine ⟨_, conn', hfresh, ?_, hunread⟩
  rw [recvJson, exec_bind_ok hexec]
  rfl

end Pair

end Lilsync
