import Lilsync.Group.Invites
import Lilsync.Group.Views
import Lilsync.Sync.Walk

/-!
# Requests

`protocol.rs` and the server of `rpc.rs`: what a node answers to the requests of a
peer, except for `GetObject`, which is answered by a stream
(`Lilsync.Rpc.Transfer`).

What gossip messages say, and what an IP address is, is left open.
-/

namespace Lilsync

open Lilsync.Lib

/-! ## Messages -/

/-- `RequestMessage`. -/
inductive RequestMessage (Gossip : Type) where
  | join (requestId : Nat) (secret joinerId : Str)
  | getRoot (requestId : Nat)
  | getPeers (requestId : Nat)
  | getNode (requestId : Nat) (pfx : Str)
  | getEntries (requestId : Nat) (pfx : Str)
  | getObject (requestId : Nat) (contentHash : Hash)
  | announce (requestId : Nat) (message : Gossip)

/-- The reason a join is rejected for, with the error it quotes. -/
inductive JoinReason where
  /-- `joiner id does not match RPC peer` -/
  | joinerIdMismatch
  /-- `could not add peer: {err}` -/
  | couldNotAddPeer (err : IoError)
  /-- `invalid or expired ticket` -/
  | invalidTicket
  /-- `could not validate ticket: {err}` -/
  | couldNotValidate (err : IoError)
deriving DecidableEq

/-- `ResponseMessage`. -/
inductive ResponseMessage where
  | joinAccepted (requestId : Nat) (members : List MemberEntry)
  | ok (requestId : Nat)
  | joinRejected (requestId : Nat) (reason : JoinReason)
  | root (requestId : Nat) (stateRoot liveRoot : Hash) (lamport : Nat)
  | peers (requestId : Nat) (members : List MemberEntry)
  | node (requestId : Nat) (node : Option TreeNode)
  | entries (requestId : Nat) (entries : List Entry)
  | objectHeader (requestId size : Nat)
  | error (requestId : Nat) (message : Str)

/-- `RpcEvent`. -/
inductive RpcEvent (Gossip IpAddr : Type) where
  | peerJoined (peer : NodeId)
  | announcement (peer : NodeId) (message : Gossip) (sourceIp : IpAddr)

/-! ## The server -/

/-- `FolderState::entry`. -/
def FolderState.entry (folder : FolderState) (path : Str) : Option Entry :=
  folder.entries[normalizePrefix path]?

/-- `is_known_member`. -/
def GroupState.isKnownMember (g : GroupState) (peer : NodeId) : Bool :=
  peer.toText ∈ g.members

/-- What the connections of a server share, and the events it has sent. -/
structure RpcServer (Gossip IpAddr : Type) where
  state : FolderState
  group : GroupState
  events : List (RpcEvent Gossip IpAddr)

/-- What a join meets outside: the invites as they are loaded, the clock, and
whether the two files can be saved. -/
structure JoinWeather where
  invites : IoResult (List PendingInvite)
  now : IoResult Nat
  savedInvites : IoResult Unit
  savedPeers : IoResult Unit

/-- `consume_invite`, and what it returns. -/
def consumeInvite [Blake3] (weather : JoinWeather) (secret : Str) : IoResult Bool := do
  let invites ← weather.invites
  let now ← weather.now
  let (edited, found) := (InviteOp.consume secret).edit invites now
  if (InviteOp.consume secret).saves invites edited then weather.savedInvites
  pure found

def notAMember (requestId : Nat) : ResponseMessage :=
  .error requestId (lit "peer is not a group member")

/-- `check_member`. -/
def checkMember (group : GroupState) (peer : NodeId) (requestId : Nat) :
    Except ResponseMessage Unit :=
  if group.isActiveMember peer then .ok () else .error (notAMember requestId)

/-- `check_known_member`. -/
def checkKnownMember (group : GroupState) (peer : NodeId) (requestId : Nat) :
    Except ResponseMessage Unit :=
  if group.isKnownMember peer then .ok () else .error (notAMember requestId)

/-- The entries of a node that the index still has. -/
def entriesAt (state : FolderState) (pfx : Str) : List Entry :=
  match state.node pfx with
  | none => []
  | some node => node.entries.keys.filterMap fun name ↦
      let pfx := normalizePrefix pfx
      state.entry (if pfx = [] then name else pfx ++ slash :: name)

section Handle

variable {Gossip IpAddr : Type} [Blake3]

/-- `handle_request`, and what it leaves of the server; `GetObject` never gets there. -/
def handleRequest (s : RpcServer Gossip IpAddr) (peer : NodeId) (sourceIp : IpAddr)
    (weather : JoinWeather) :
    RequestMessage Gossip → Option (ResponseMessage × RpcServer Gossip IpAddr)
  | .join requestId secret joinerId =>
    if joinerId ≠ peer.toText then some (.joinRejected requestId .joinerIdMismatch, s)
    else match consumeInvite weather secret with
      | .ok true =>
        match s.group.addActivePeer peer weather.savedPeers with
        | (.ok _, group) => some (.joinAccepted requestId group.memberList,
            { s with group, events := s.events ++ [.peerJoined peer] })
        | (.error err, group) =>
          some (.joinRejected requestId (.couldNotAddPeer err), { s with group })
      | .ok false => some (.joinRejected requestId .invalidTicket, s)
      | .error err => some (.joinRejected requestId (.couldNotValidate err), s)
  | .getRoot requestId =>
    match checkMember s.group peer requestId with
    | .error e => some (e, s)
    | .ok () => some (.root requestId s.state.tree.rootHash s.state.liveTree.rootHash
        s.state.lamport, s)
  | .getPeers requestId =>
    match checkKnownMember s.group peer requestId with
    | .error e => some (e, s)
    | .ok () => some (.peers requestId s.group.memberList, s)
  | .getNode requestId pfx =>
    match checkMember s.group peer requestId with
    | .error e => some (e, s)
    | .ok () => some (.node requestId (s.state.node pfx), s)
  | .getEntries requestId pfx =>
    match checkMember s.group peer requestId with
    | .error e => some (e, s)
    | .ok () => some (.entries requestId (entriesAt s.state pfx), s)
  | .announce requestId message =>
    match checkMember s.group peer requestId with
    | .error e => some (e, s)
    | .ok () => some (.ok requestId,
        { s with events := s.events ++ [.announcement peer message sourceIp] })
  | .getObject _ _ => none

/-- The requests that are guarded by `check_member`: all but `Join`, `GetPeers`, and
`GetObject`, which has a check of its own. -/
def RequestMessage.isGuarded : RequestMessage Gossip → Bool
  | .getRoot _ | .getNode _ _ | .getEntries _ _ | .announce _ _ => true
  | .join _ _ _ | .getPeers _ | .getObject _ _ => false

/-- The id of a request. -/
def RequestMessage.requestId : RequestMessage Gossip → Nat
  | .join requestId _ _ | .getRoot requestId | .getPeers requestId | .getNode requestId _
  | .getEntries requestId _ | .getObject requestId _ | .announce requestId _ => requestId

/-- A guarded request of a peer that is not active is refused, and changes nothing. -/
theorem handleRequest_of_inactive {s : RpcServer Gossip IpAddr} {peer : NodeId}
    (hpeer : ¬ s.group.isActiveMember peer) {request : RequestMessage Gossip}
    (hguarded : request.isGuarded) (sourceIp : IpAddr) (weather : JoinWeather) :
    handleRequest s peer sourceIp weather request = some (notAMember request.requestId, s) := by
  have hcheck (requestId : Nat) :
      checkMember s.group peer requestId = .error (notAMember requestId) := if_neg hpeer
  cases request with
  | getRoot _ | getNode _ _ | getEntries _ _ | announce _ _ =>
    rw [handleRequest, hcheck]
    rfl
  | join _ _ _ | getPeers _ | getObject _ _ => cases hguarded

end Handle

end Lilsync
