import Lilsync.Endpoints
import Lilsync.Group.Removal
import Lilsync.Rpc.Client
import Lilsync.Ticket

/-!
# Inviting and joining

`commands.rs`: `create_invite` and `join_group`.  The first puts an invite on file and prints
a ticket, the second takes the ticket to the node that it names, and keeps the answer.

A node that invites goes on with other things: it prints more tickets, handles requests to
join, changes its ledger.  As long as the calls on the file of invites come one after the
other, a ticket lets in the first one that takes it in time, and nobody else
(`Inviter.ticket_of_reachable`).
-/

namespace Lilsync

open Lilsync.Lib

/-! ## The commands -/

/-- The files of a group under `.lil`. -/
structure GroupFiles where
  peers : PeersFile
  invites : List PendingInvite
  endpoints : AddressBook
  /-- What `load_port` reads. -/
  port : Option UInt16

/-- What `create_invite` meets outside. -/
structure InviteCommandWeather where
  savedPeers : IoResult Unit
  /-- `local_endpoints`. -/
  detected : UInt16 → List Str
  secret : IoResult (Vector UInt8 32)
  now : IoResult Nat
  loadedInvites : IoResult Unit
  /-- The clock, as `add_invite` reads it. -/
  nowAdding : IoResult Nat
  savedInvites : IoResult Unit

/-- `GroupState::replace`. -/
def GroupState.replace (members : List MemberEntry) : PeersFile :=
  .loaded (members.insertionSort fun e e' ↦ e.id ≤ e'.id)

/-- The endpoints that go into a ticket. -/
def ticketEndpoints (port : Option UInt16) (endpointOverride : List Str)
    (weather : InviteCommandWeather) : IoResult (List Str) :=
  if endpointOverride = [] then
    match port with
    | none => .error (.ofKind .other)
    | some port =>
      if weather.detected port = [] then .error (.ofKind .other) else .ok (weather.detected port)
  else .ok endpointOverride

/-- When an invite expires.  The sum wraps around in a release build. -/
def expiresAt (now expireSecs : Nat) : Nat :=
  (now + min (expireSecs * 1000) (2 ^ 64 - 1)) % 2 ^ 64

section CreateInvite

variable [Blake3]

/-- `add_invite` on its own: what it leaves on file, unless it fails. -/
def addInvite (invites : List PendingInvite) (secret : Str) (expiresAtMs : Nat)
    (weather : InviteCommandWeather) : IoResult (List PendingInvite) := do
  weather.loadedInvites
  let now ← weather.nowAdding
  weather.savedInvites
  pure ((InviteOp.add secret expiresAtMs).edit invites now).1

/-- `create_invite`: what it prints, and the files. -/
def createInvite (localId : NodeId) (expireSecs : Nat) (endpointOverride : List Str)
    (weather : InviteCommandWeather) (files : GroupFiles) : Option (IoResult Str) × GroupFiles :=
  match GroupState.loadOrInit localId files.peers weather.savedPeers with
  | .error err => (some (.error err), files)
  | .ok group =>
    let files := { files with peers := savePeersFile group.members }
    let added : IoResult (List Str × Vector UInt8 32 × List PendingInvite) := do
      let endpoints ← ticketEndpoints files.port endpointOverride weather
      let secret ← weather.secret
      let now ← weather.now
      let invites ← addInvite files.invites (toHex secret) (expiresAt now expireSecs) weather
      pure (endpoints, secret, invites)
    match added with
    | .error err => (some (.error err), files)
    | .ok (endpoints, secret, invites) =>
      (encodeTicket localId secret endpoints, { files with invites })

end CreateInvite

/-- Why `join_group` fails. -/
inductive JoinError where
  | io (err : IoError)
  | call (err : CallError)

/-- `join_group`, where `ask` is what comes back for a request to a node. -/
def joinGroupCommand {Gossip : Type} (joiner : NodeId) (book : AddressBook)
    (ask : NodeId → RequestMessage Gossip → IoResult ResponseMessage) (requestId : Nat)
    (savedPeers savedBook : IoResult Unit) (ticket : Str) (files : GroupFiles) :
    Option (Except JoinError Unit × GroupFiles) := do
  match ← parseJoinTicket ticket with
  | .error err => pure (.error (.io err), files)
  | .ok ticket =>
    if ticket.endpoints = [] then pure (.error (.io (.ofKind .other)), files)
    else
      let book := Function.update book ticket.issuer (some ⟨ticket.endpoints, none⟩)
      match ask ticket.issuer (.join requestId ticket.secret joiner.toText) with
      | .error err => pure (.error (.io err), files)
      | .ok response =>
        match joinGroup ticket.issuer requestId response with
        | .error err => pure (.error (.call err), files)
        | .ok members =>
          match savedPeers with
          | .error err => pure (.error (.io err), files)
          | .ok _ =>
            let files := { files with peers := GroupState.replace members }
            match savedBook with
            | .error err => pure (.error (.io err), files)
            | .ok _ => pure (.ok (), { files with endpoints := book })

/-! ## What the ledger of a joiner is -/

namespace GroupState

theorem isActiveMember_addActivePeer (g : GroupState) (peer : NodeId) (saved : IoResult Unit) :
    (g.addActivePeer peer saved).2.isActiveMember peer := by
  rw [isActiveMember, addActivePeer]
  cases he : g.members[peer.toText]? with
  | none =>
    dsimp only
    rw [OrdMap.getElem?_insert_eq, if_pos rfl]
    rfl
  | some e =>
    dsimp only
    split
    · next hactive =>
      rw [he]
      exact decide_eq_true hactive
    · rw [OrdMap.getElem?_insert_eq, if_pos rfl]
      rfl

theorem exists_addActivePeer_ok (g : GroupState) (peer : NodeId) :
    ∃ added, (g.addActivePeer peer (.ok ())).1 = .ok added := by
  rw [addActivePeer]
  split
  · split
    · exact ⟨false, rfl⟩
    · exact ⟨true, rfl⟩
  · exact ⟨true, rfl⟩

/-- A member loads the ledger that was saved. -/
theorem loadOrInit_savePeersFile {members : Members} (h : Keyed members) {joiner : NodeId}
    (hmem : joiner.toText ∈ members) :
    ∃ g, loadOrInit joiner (savePeersFile members) (.ok ()) = .ok g ∧
      ∀ id : Str, g.members[id]? = members[id]? := by
  have hloaded := LedgerSystem.getElem?_ofList_savePeersFile h
  rw [savePeersFile, PeersFile.entries] at hloaded
  have hmem' : joiner.toText ∈ (Std.ExtTreeMap.ofList
      (((OrdMap.values members).insertionSort fun e e' ↦ e.id ≤ e'.id).map
        fun e ↦ (e.id, e)) : Members) := by
    rw [Std.ExtTreeMap.mem_iff_isSome_getElem?, hloaded,
      ← Std.ExtTreeMap.mem_iff_isSome_getElem?]
    exact hmem
  exact ⟨_, congrArg (fun m ↦ Except.ok (mk joiner.toText m)) (if_pos hmem'), hloaded⟩

/-- An active member is a peer of every other one. -/
theorem mem_activePeers_of_active {g : GroupState} (h : Keyed g.members) {n : NodeId}
    (hne : n.toText ≠ g.localId) (hactive : g.isActiveMember n) : n ∈ g.activePeers := by
  rw [isActiveMember, Option.any_eq_true] at hactive
  obtain ⟨e, he, hstatus⟩ := hactive
  have hid := h _ e he
  rw [activePeers, List.mem_filterMap]
  refine ⟨e, mem_activeOthers.mpr ⟨⟨_, he⟩, hid ▸ hne, of_decide_eq_true hstatus⟩, ?_⟩
  rw [hid, NodeId.fromText_toText]

end GroupState

/-! ## A node that invites -/

/-- A ticket that was printed. -/
structure PrintedTicket where
  text : Str
  endpoints : List Str
  secret : Vector UInt8 32
  expiresAtMs : Nat

/-- The files and the server of a node that invites. -/
structure Inviter (Gossip IpAddr : Type) where
  files : GroupFiles
  server : RpcServer Gossip IpAddr
  /-- Ghost: no time that was read is later. -/
  latest : Nat
  printed : List PrintedTicket
  /-- Ghost: the secrets with which invites were taken off the file, and by whom. -/
  used : List (NodeId × Str)

inductive InviterAct (Gossip IpAddr : Type) where
  /-- `create_invite`. -/
  | invite (expireSecs : Nat) (endpointOverride : List Str) (weather : InviteCommandWeather)
  /-- A request to join is handled. -/
  | join (peer : NodeId) (sourceIp : IpAddr) (requestId : Nat) (secret joinerId : Str)
    (weather : JoinWeather)
  /-- The ledger and its file change. -/
  | regroup (group : GroupState) (peers : PeersFile)
  /-- The folder changes. -/
  | edit (state : FolderState)

namespace Inviter

variable {Gossip IpAddr : Type} [Blake3]

/-- An invite with this hash was taken off the file. -/
def Used (s : Inviter Gossip IpAddr) (hash : Str) : Prop := ∃ u ∈ s.used, hashSecret u.2 = hash

/-- What `create_invite` adds to the tickets, given what it prints. -/
def printedBy (endpointOverride : List Str) (expireSecs : Nat) (weather : InviteCommandWeather)
    (port : Option UInt16) (printed : Option (IoResult Str)) : List PrintedTicket :=
  match printed, ticketEndpoints port endpointOverride weather, weather.secret, weather.now with
  | some (.ok text), .ok endpoints, .ok secret, .ok now =>
    [⟨text, endpoints, secret, expiresAt now expireSecs⟩]
  | _, _, _, _ => []

/-- The file of invites is loaded as it is, if it can be loaded. -/
def loading (s : Inviter Gossip IpAddr) (weather : JoinWeather) : JoinWeather :=
  { weather with invites := weather.invites.map fun _ ↦ s.files.invites }

/-- The invites after `consume_invite`, called on its own. -/
def invitesAfter (invites : List PendingInvite) (secret : Str) (weather : JoinWeather) :
    List PendingInvite :=
  match consumeInvite weather secret, weather.now with
  | .ok _, .ok now =>
    let edited := ((InviteOp.consume secret).edit invites now).1
    if (InviteOp.consume secret).saves invites edited then edited else invites
  | _, _ => invites

/-- The ledger on file after a join: it is saved if the peer is new. -/
def peersAfter (s : Inviter Gossip IpAddr) (peer : NodeId) (savedPeers : IoResult Unit) :
    PeersFile :=
  let added := s.server.group.addActivePeer peer savedPeers
  if added.1.toOption == some true then savePeersFile added.2.members else s.files.peers

/-- What an action of the node `localId` leads to, if it can happen. -/
def next (localId : NodeId) (s : Inviter Gossip IpAddr) :
    InviterAct Gossip IpAddr → Option (Inviter Gossip IpAddr)
  | .invite expireSecs endpointOverride weather =>
    let (printed, files) := createInvite localId expireSecs endpointOverride weather s.files
    some { s with
      files
      latest := max s.latest (weather.nowAdding.toOption.getD 0)
      printed := s.printed ++
        printedBy endpointOverride expireSecs weather s.files.port printed }
  | .join peer sourceIp requestId secret joinerId weather =>
    let weather := s.loading weather
    (handleRequest s.server peer sourceIp weather (.join requestId secret joinerId)).map fun r ↦
      if joinerId ≠ peer.toText then { s with server := r.2 }
      else
        let found := (consumeInvite weather secret).toOption == some true
        { s with
          files := { s.files with
            invites := invitesAfter s.files.invites secret weather
            peers := if found then s.peersAfter peer weather.savedPeers else s.files.peers }
          server := r.2
          latest := max s.latest (weather.now.toOption.getD 0)
          used := s.used ++ if found then [(peer, secret)] else [] }
  | .regroup group peers =>
    some { s with server := { s.server with group }, files := { s.files with peers } }
  | .edit state => some { s with server := { s.server with state } }

/-- Endpoints are text without commas, a new secret has not been used, and a ledger is filed by
the ids of its members. -/
def Proper (s : Inviter Gossip IpAddr) : InviterAct Gossip IpAddr → Prop
  | .invite _ endpointOverride weather =>
    (∀ endpoints, ticketEndpoints s.files.port endpointOverride weather = .ok endpoints →
      ∀ e ∈ endpoints, Utf8.valid e ∧ e ≠ [] ∧ comma ∉ e) ∧
    ∀ secret, weather.secret = .ok secret → ¬ s.Used (hashSecret (toHex secret))
  | .regroup group _ => GroupState.Keyed group.members
  | _ => True

/-- Nothing has been printed or used. -/
def Starting (s : Inviter Gossip IpAddr) : Prop :=
  GroupState.Keyed s.server.group.members ∧ s.printed = [] ∧ s.used = []

/-- The runs of the node `localId`. -/
def machine (localId : NodeId) : Machine (Inviter Gossip IpAddr) :=
  .ofActions Starting (next localId) Proper

/-! ## What is printed is on file until it is used -/

/-- The ticket says whom to ask, for what, and where. -/
def Reads (localId : NodeId) (p : PrintedTicket) : Prop :=
  p.endpoints ≠ [] ∧ parseJoinTicket p.text = some (.ok ⟨localId, toHex p.secret, p.endpoints⟩)

/-- An invite is on file until it expires or is used, and then never again. -/
structure Sound (localId : NodeId) (s : Inviter Gossip IpAddr) : Prop where
  keyed : GroupState.Keyed s.server.group.members
  reads : ∀ p ∈ s.printed, Reads localId p
  kept : ∀ p ∈ s.printed, s.latest < p.expiresAtMs → ¬ s.Used (hashSecret (toHex p.secret)) →
    ⟨hashSecret (toHex p.secret), p.expiresAtMs⟩ ∈ s.files.invites
  gone : ∀ i ∈ s.files.invites, ¬ s.Used i.secretHash

variable {localId : NodeId} {s s' : Inviter Gossip IpAddr} {expireSecs : Nat}
  {endpointOverride : List Str} {weather : InviteCommandWeather} {files : GroupFiles}

/-- The invites stay, or one is added and a ticket made. -/
theorem createInvite_cases (localId : NodeId) (expireSecs : Nat) (endpointOverride : List Str)
    (weather : InviteCommandWeather) (files : GroupFiles) :
    ((createInvite localId expireSecs endpointOverride weather files).2.invites = files.invites ∧
      ∃ err, (createInvite localId expireSecs endpointOverride weather files).1 =
        some (.error err)) ∨
    ∃ endpoints secret now nowAdding,
      ticketEndpoints files.port endpointOverride weather = .ok endpoints ∧
      weather.secret = .ok secret ∧ weather.now = .ok now ∧ weather.nowAdding = .ok nowAdding ∧
      (createInvite localId expireSecs endpointOverride weather files).2.invites =
        ((InviteOp.add (toHex secret) (expiresAt now expireSecs)).edit files.invites
          nowAdding).1 ∧
      (createInvite localId expireSecs endpointOverride weather files).1 =
        encodeTicket localId secret endpoints := by
  rw [createInvite]
  cases GroupState.loadOrInit localId files.peers weather.savedPeers with
  | error err => exact .inl ⟨rfl, err, rfl⟩
  | ok group =>
    dsimp only
    cases hendpoints : ticketEndpoints files.port endpointOverride weather with
    | error err => exact .inl ⟨rfl, err, rfl⟩
    | ok endpoints =>
      cases hsecret : weather.secret with
      | error err => exact .inl ⟨rfl, err, rfl⟩
      | ok secret =>
        cases hnow : weather.now with
        | error err => exact .inl ⟨rfl, err, rfl⟩
        | ok now =>
          unfold addInvite
          cases weather.loadedInvites with
          | error err => exact .inl ⟨rfl, err, rfl⟩
          | ok _ =>
            cases hadding : weather.nowAdding with
            | error err => exact .inl ⟨rfl, err, rfl⟩
            | ok nowAdding =>
              cases weather.savedInvites with
              | error err => exact .inl ⟨rfl, err, rfl⟩
              | ok _ => exact .inr ⟨endpoints, secret, now, nowAdding, rfl, rfl, rfl, rfl, rfl, rfl⟩

omit [Blake3] in
theorem mem_printedBy {p : PrintedTicket} {port : Option UInt16} {printed : Option (IoResult Str)}
    (h : p ∈ printedBy endpointOverride expireSecs weather port printed) :
    ∃ text endpoints secret now, printed = some (.ok text) ∧
      ticketEndpoints port endpointOverride weather = .ok endpoints ∧
      weather.secret = .ok secret ∧ weather.now = .ok now ∧
      p = ⟨text, endpoints, secret, expiresAt now expireSecs⟩ := by
  rw [printedBy.eq_def] at h
  split at h
  · next text endpoints secret now hendpoints hsecret hnow =>
    exact ⟨text, endpoints, secret, now, rfl, hendpoints, hsecret, hnow, List.mem_singleton.mp h⟩
  · cases h

omit [Blake3] in
theorem ticketEndpoints_ne_nil {port : Option UInt16} {endpoints : List Str}
    (h : ticketEndpoints port endpointOverride weather = .ok endpoints) : endpoints ≠ [] := by
  rw [ticketEndpoints.eq_def] at h
  split at h
  · split at h
    · cases h
    · split at h
      · cases h
      · next hne => exact Except.ok.inj h ▸ hne
  · next hne => exact Except.ok.inj h ▸ hne

omit [Blake3] in
/-- A ticket that was made is read back. -/
theorem reads_of_encodeTicket {secret : Vector UInt8 32} {endpoints : List Str} {text : Str}
    {expiresAtMs : Nat} (hne : endpoints ≠ [])
    (hends : ∀ e ∈ endpoints, Utf8.valid e ∧ e ≠ [] ∧ comma ∉ e)
    (h : encodeTicket localId secret endpoints = some (.ok text)) :
    Reads localId ⟨text, endpoints, secret, expiresAtMs⟩ := by
  refine ⟨hne, ?_⟩
  by_cases hlen : ([comma].intercalate endpoints).length ≤ maxTicketEndpointBytes
  · obtain ⟨ticket, henc, -, hparse⟩ := parseJoinTicket_encodeTicket localId secret
      (fun e he ↦ (hends e he).1) (fun e he ↦ (hends e he).2.1) (fun e he ↦ (hends e he).2.2) hlen
    obtain rfl := Except.ok.inj (Option.some.inj (henc.symm.trans h))
    exact hparse
  · rw [encodeTicket, if_pos (not_le.mp hlen)] at h
    cases h

theorem next_invite (s : Inviter Gossip IpAddr) :
    s.next localId (.invite expireSecs endpointOverride weather) = some { s with
      files := (createInvite localId expireSecs endpointOverride weather s.files).2
      latest := max s.latest (weather.nowAdding.toOption.getD 0)
      printed := s.printed ++ printedBy endpointOverride expireSecs weather s.files.port
        (createInvite localId expireSecs endpointOverride weather s.files).1 } := rfl

theorem Sound.invite (h : Sound localId s)
    (hproper : Proper s (.invite expireSecs endpointOverride weather))
    (hnext : s.next localId (.invite expireSecs endpointOverride weather) = some s') :
    Sound localId s' := by
  rw [next_invite] at hnext
  obtain rfl := Option.some.inj hnext
  rcases createInvite_cases localId expireSecs endpointOverride weather s.files with
    ⟨hinvites, err, herr⟩ |
    ⟨endpoints, secret, now, nowAdding, hends, hsecret, hnow, hadding, hinvites, htext⟩
  · have hprinted : s.printed ++ printedBy endpointOverride expireSecs weather s.files.port
        (createInvite localId expireSecs endpointOverride weather s.files).1 = s.printed := by
      rw [herr]
      exact List.append_nil _
    refine ⟨h.keyed, ?_, ?_, ?_⟩
    · dsimp only
      rw [hprinted]
      exact h.reads
    · intro p hp hlt hunused
      dsimp only at hp ⊢
      rw [hprinted] at hp
      rw [hinvites]
      exact h.kept p hp (lt_of_le_of_lt (le_max_left _ _) hlt) hunused
    · intro i hi
      dsimp only at hi
      rw [hinvites] at hi
      exact h.gone i hi
  · have hlatest : nowAdding ≤ max s.latest (weather.nowAdding.toOption.getD 0) := by
      rw [hadding]
      exact le_max_right _ _
    refine ⟨h.keyed, ?_, ?_, ?_⟩
    · intro p hp
      rcases List.mem_append.mp hp with hp | hp
      · exact h.reads p hp
      · obtain ⟨text, endpoints', secret', now', hprinted, hends', hsecret', -, rfl⟩ :=
          mem_printedBy hp
        obtain rfl := Except.ok.inj (hends.symm.trans hends')
        obtain rfl := Except.ok.inj (hsecret.symm.trans hsecret')
        exact reads_of_encodeTicket (ticketEndpoints_ne_nil hends) (hproper.1 _ hends)
          (htext.symm.trans hprinted)
    · intro p hp hlt hunused
      dsimp only
      rw [hinvites, InviteSystem.mem_edit_add]
      rcases List.mem_append.mp hp with hp | hp
      · have hlt' := lt_of_le_of_lt (le_max_left _ _) hlt
        exact .inl ⟨h.kept p hp hlt' hunused, lt_of_le_of_lt hlatest hlt⟩
      · obtain ⟨text, endpoints', secret', now', -, -, hsecret', hnow', rfl⟩ := mem_printedBy hp
        obtain rfl := Except.ok.inj (hsecret.symm.trans hsecret')
        obtain rfl := Except.ok.inj (hnow.symm.trans hnow')
        exact .inr rfl
    · intro i hi
      dsimp only at hi
      rw [hinvites, InviteSystem.mem_edit_add] at hi
      rcases hi with ⟨hi, -⟩ | rfl
      · exact h.gone i hi
      · exact hproper.2 secret hsecret

/-- Either the file of invites stays and nothing is found, or it is edited. -/
theorem consume_cases (invites : List PendingInvite) (secret : Str) {weather : JoinWeather}
    (hload : ∀ l, weather.invites = .ok l → l = invites) :
    ((consumeInvite weather secret).toOption ≠ some true ∧
      invitesAfter invites secret weather = invites) ∨
    ∃ now, weather.now = .ok now ∧
      consumeInvite weather secret = .ok ((InviteOp.consume secret).edit invites now).2 ∧
      invitesAfter invites secret weather = ((InviteOp.consume secret).edit invites now).1 := by
  rw [invitesAfter]
  cases hconsume : consumeInvite weather secret with
  | error err => exact .inl ⟨by rintro ⟨⟩, rfl⟩
  | ok found =>
    unfold consumeInvite at hconsume
    cases hinvites : weather.invites with
    | error err =>
      rw [hinvites] at hconsume
      cases hconsume
    | ok l =>
      obtain rfl := hload l hinvites
      cases hnow : weather.now with
      | error err =>
        rw [hinvites, hnow] at hconsume
        cases hconsume
      | ok now =>
        rw [hinvites, hnow] at hconsume
        dsimp only [bind, Except.bind] at hconsume
        by_cases hsaves :
            (InviteOp.consume secret).saves l ((InviteOp.consume secret).edit l now).1 = true
        · rw [if_pos hsaves] at hconsume
          cases hsaved : weather.savedInvites with
          | error err =>
            rw [hsaved] at hconsume
            cases hconsume
          | ok _ =>
            rw [hsaved] at hconsume
            obtain rfl := Except.ok.inj hconsume
            exact .inr ⟨now, rfl, rfl, if_pos hsaves⟩
        · rw [if_neg hsaves] at hconsume
          obtain rfl := Except.ok.inj hconsume
          refine .inl ⟨?_, if_neg hsaves⟩
          rw [InviteSystem.not_found_of_not_saves (Bool.not_eq_true _ ▸ hsaves)]
          rintro ⟨⟩

/-- What a request to join leaves of the server. -/
theorem handleRequest_join_snd {server : RpcServer Gossip IpAddr} {peer : NodeId}
    {sourceIp : IpAddr} {weather : JoinWeather} {requestId : Nat} {secret joinerId : Str}
    {r : ResponseMessage × RpcServer Gossip IpAddr}
    (h : handleRequest server peer sourceIp weather (.join requestId secret joinerId) = some r) :
    r.2.group = server.group ∨
      r.2.group = (server.group.addActivePeer peer weather.savedPeers).2 := by
  rw [handleRequest] at h
  split at h
  · obtain rfl := Option.some.inj h
    exact .inl rfl
  · split at h
    · split at h
      · next hadded =>
        obtain rfl := Option.some.inj h
        exact .inr (by rw [hadded])
      · next hadded =>
        obtain rfl := Option.some.inj h
        exact .inr (by rw [hadded])
    · obtain rfl := Option.some.inj h
      exact .inl rfl
    · obtain rfl := Option.some.inj h
      exact .inl rfl

/-- What a join makes of the node. -/
theorem next_join (s : Inviter Gossip IpAddr) (peer : NodeId) (sourceIp : IpAddr)
    (requestId : Nat) (secret joinerId : Str) (weather : JoinWeather) :
    s.next localId (.join peer sourceIp requestId secret joinerId weather) =
      (handleRequest s.server peer sourceIp (s.loading weather)
        (.join requestId secret joinerId)).map fun r ↦
          if joinerId ≠ peer.toText then { s with server := r.2 }
          else { s with
            files := { s.files with
              invites := invitesAfter s.files.invites secret (s.loading weather)
              peers := if (consumeInvite (s.loading weather) secret).toOption == some true then
                s.peersAfter peer weather.savedPeers else s.files.peers }
            server := r.2
            latest := max s.latest (weather.now.toOption.getD 0)
            used := s.used ++
              if (consumeInvite (s.loading weather) secret).toOption == some true then
                [(peer, secret)] else [] } := rfl

omit [Blake3] in
theorem invites_loading (s : Inviter Gossip IpAddr) (weather : JoinWeather) :
    ∀ l, (s.loading weather).invites = .ok l → l = s.files.invites := by
  intro l hl
  rw [loading] at hl
  cases hinvites : weather.invites with
  | error err =>
    rw [hinvites] at hl
    cases hl
  | ok _ =>
    rw [hinvites] at hl
    exact (Except.ok.inj hl).symm

theorem Sound.join (h : Sound localId s) {peer : NodeId} {sourceIp : IpAddr} {requestId : Nat}
    {secret joinerId : Str} {weather : JoinWeather}
    (hnext : s.next localId (.join peer sourceIp requestId secret joinerId weather) = some s') :
    Sound localId s' := by
  rw [next_join] at hnext
  obtain ⟨r, hr, rfl⟩ := Option.map_eq_some_iff.mp hnext
  have hkeyed : GroupState.Keyed r.2.group.members := by
    rcases handleRequest_join_snd hr with heq | heq <;> rw [heq]
    · exact h.keyed
    · exact LedgerSystem.keyed_addActivePeer h.keyed peer _
  split
  · exact ⟨hkeyed, h.reads, h.kept, h.gone⟩
  · rcases consume_cases s.files.invites secret (s.invites_loading weather) with
      ⟨hnot, hinvites⟩ | ⟨now, hnow, hconsume, hinvites⟩
    · rw [if_neg (by simpa using hnot), if_neg (by simpa using hnot), List.append_nil, hinvites]
      refine ⟨hkeyed, h.reads, ?_, h.gone⟩
      intro p hp hlt
      exact h.kept p hp (lt_of_le_of_lt (le_max_left _ _) hlt)
    · have hlatest : now ≤ max s.latest (weather.now.toOption.getD 0) := by
        rw [show weather.now = .ok now from hnow]
        exact le_max_right _ _
      rw [hinvites, hconsume]
      refine ⟨hkeyed, h.reads, ?_, ?_⟩
      · intro p hp hlt hunused
        have hearlier : ¬ s.Used (hashSecret (toHex p.secret)) := by
          rintro ⟨u, hu, heq⟩
          exact hunused ⟨u, List.mem_append_left _ hu, heq⟩
        have hfiled := h.kept p hp (lt_of_le_of_lt (le_max_left _ _) hlt) hearlier
        have hintime := lt_of_le_of_lt hlatest hlt
        refine InviteSystem.mem_edit_consume.mpr ⟨hfiled, hintime, ?_⟩
        intro heq
        apply hunused
        -- An invite with the hash of the secret would have been found.
        have hfound := InviteSystem.found_consume.mpr ⟨_, hfiled, hintime, heq⟩
        refine ⟨(peer, secret), List.mem_append_right _ ?_, heq.symm⟩
        rw [hfound]
        exact List.mem_singleton_self _
      · intro i hi hused
        obtain ⟨hi, -, hne⟩ := InviteSystem.mem_edit_consume.mp hi
        obtain ⟨u, hu, heq⟩ := hused
        rcases List.mem_append.mp hu with hu | hu
        · exact h.gone i hi ⟨u, hu, heq⟩
        · split at hu
          · obtain rfl := List.mem_singleton.mp hu
            exact hne heq.symm
          · cases hu

theorem sound_of_run (h : (machine localId).Reachable s) : Sound localId s := by
  refine Machine.Reachable.invariant (M := machine localId) (I := Sound localId) ?_ ?_ h
  · rintro s ⟨hkeyed, hprinted, hused⟩
    refine ⟨hkeyed, ?_, ?_, ?_⟩
    · rw [hprinted]
      intro p hp
      exact absurd hp List.not_mem_nil
    · rw [hprinted]
      intro p hp
      exact absurd hp List.not_mem_nil
    · rintro i - ⟨u, hu, -⟩
      rw [hused] at hu
      cases hu
  · rintro s s' - hs ⟨act, hproper, hnext⟩
    cases act with
    | invite expireSecs endpointOverride weather => exact hs.invite hproper hnext
    | join peer sourceIp requestId secret joinerId weather => exact hs.join hnext
    | regroup group peers =>
      obtain rfl := Option.some.inj hnext
      exact ⟨hproper, hs.reads, hs.kept, hs.gone⟩
    | edit state =>
      obtain rfl := Option.some.inj hnext
      exact ⟨hs.keyed, hs.reads, hs.kept, hs.gone⟩

/-! ## Bringing a ticket -/

/-- What is used stays used. -/
theorem Used.next {hash : Str} (h : s.Used hash) {act : InviterAct Gossip IpAddr}
    (hnext : s.next localId act = some s') : s'.Used hash := by
  obtain ⟨u, hu, heq⟩ := h
  cases act with
  | invite expireSecs endpointOverride weather =>
    rw [next_invite] at hnext
    obtain rfl := Option.some.inj hnext
    exact ⟨u, hu, heq⟩
  | join peer sourceIp requestId secret joinerId weather =>
    rw [next_join] at hnext
    obtain ⟨r, -, rfl⟩ := Option.map_eq_some_iff.mp hnext
    split
    · exact ⟨u, hu, heq⟩
    · exact ⟨u, List.mem_append_left _ hu, heq⟩
  | regroup group peers =>
    obtain rfl := Option.some.inj hnext
    exact ⟨u, hu, heq⟩
  | edit state =>
    obtain rfl := Option.some.inj hnext
    exact ⟨u, hu, heq⟩

/-- Files that are no trouble, and a clock. -/
def calm (now : Nat) : JoinWeather := ⟨.ok [], .ok now, .ok (), .ok ()⟩

/-- What comes back to the joiner when it asks a node: this one answers, and nobody else. -/
def ask (localId : NodeId) (s : Inviter Gossip IpAddr) (joiner : NodeId) (sourceIp : IpAddr)
    (weather : JoinWeather) (peer : NodeId) (request : RequestMessage Gossip) :
    IoResult ResponseMessage :=
  if peer = localId then
    match handleRequest s.server joiner sourceIp (s.loading weather) request with
    | some (response, _) => .ok response
    | none => .error (.ofKind .unexpectedEof)
  else .error (.ofKind .notFound)

/-- `join_group` at a node that can save its files. -/
def bring (localId : NodeId) (s : Inviter Gossip IpAddr) (joiner : NodeId) (sourceIp : IpAddr)
    (requestId : Nat) (weather : JoinWeather) (book : AddressBook) (ticket : Str)
    (files : GroupFiles) : Option (Except JoinError Unit × GroupFiles) :=
  joinGroupCommand joiner book (ask localId s joiner sourceIp weather) requestId (.ok ()) (.ok ())
    ticket files

/-- The joiner is a member, knows where the node is, and starts with the ledger of the node, which
is then a peer of it. -/
structure Joined (localId joiner : NodeId) (endpoints : List Str) (group : GroupState)
    (files : GroupFiles) : Prop where
  active : group.isActiveMember joiner
  listed : joiner.toText ≠ group.localId → joiner ∈ group.activePeers
  address : files.endpoints localId = some ⟨endpoints, none⟩
  starts : ∃ g, GroupState.loadOrInit joiner files.peers (.ok ()) = .ok g ∧
    (∀ id : Str, g.members[id]? = group.members[id]?) ∧
    (joiner ≠ localId → group.isActiveMember localId → localId ∈ g.activePeers)

theorem consumeInvite_calm (s : Inviter Gossip IpAddr) (now : Nat) (secret : Str) :
    consumeInvite (s.loading (calm now)) secret =
      .ok ((InviteOp.consume secret).edit s.files.invites now).2 := by
  show (if _ then _ else _) = _
  split <;> rfl

/-- Who brings the secret of an invite is let in. -/
theorem handleRequest_join_of_found {server : RpcServer Gossip IpAddr} {peer : NodeId}
    {weather : JoinWeather} {secret : Str} (hfound : consumeInvite weather secret = .ok true)
    (hsaved : weather.savedPeers = .ok ()) (sourceIp : IpAddr) (requestId : Nat) :
    handleRequest server peer sourceIp weather (.join requestId secret peer.toText) =
      some (.joinAccepted requestId (server.group.addActivePeer peer (.ok ())).2.memberList,
        { server with
          group := (server.group.addActivePeer peer (.ok ())).2
          events := server.events ++ [.peerJoined peer] }) := by
  obtain ⟨added, hadded⟩ := GroupState.exists_addActivePeer_ok server.group peer
  rw [handleRequest, if_neg (not_not_intro rfl), hfound, hsaved]
  dsimp only
  generalize server.group.addActivePeer peer (.ok ()) = r at hadded
  obtain ⟨result, group⟩ := r
  obtain rfl : result = .ok added := hadded
  rfl

/-- Who brings a secret that cannot be looked up is told so. -/
theorem handleRequest_join_of_error {server : RpcServer Gossip IpAddr} {peer : NodeId}
    {weather : JoinWeather} {secret : Str} {err : IoError}
    (hfound : consumeInvite weather secret = .error err) (sourceIp : IpAddr) (requestId : Nat) :
    handleRequest server peer sourceIp weather (.join requestId secret peer.toText) =
      some (.joinRejected requestId (.couldNotValidate err), server) := by
  rw [handleRequest, if_neg (not_not_intro rfl), hfound]

/-- Who brings another secret is told that it is no good. -/
theorem handleRequest_join_of_not_found {server : RpcServer Gossip IpAddr} {peer : NodeId}
    {weather : JoinWeather} {secret : Str} (hfound : consumeInvite weather secret = .ok false)
    (sourceIp : IpAddr) (requestId : Nat) :
    handleRequest server peer sourceIp weather (.join requestId secret peer.toText) =
      some (.joinRejected requestId .invalidTicket, server) := by
  rw [handleRequest, if_neg (not_not_intro rfl), hfound]

/-- A ticket is taken to the node that printed it, and its answer decides. -/
theorem bring_of_reads {p : PrintedTicket} (hreads : Reads localId p) (joiner : NodeId)
    (sourceIp : IpAddr) (requestId : Nat) (weather : JoinWeather) (book : AddressBook)
    (files : GroupFiles) {response : ResponseMessage}
    {server : RpcServer Gossip IpAddr}
    (hrequest : handleRequest s.server joiner sourceIp (s.loading weather)
      (.join requestId (toHex p.secret) joiner.toText) = some (response, server)) :
    (∀ members, joinGroup localId requestId response = .ok members →
      bring localId s joiner sourceIp requestId weather book p.text files =
        some (.ok (), { files with
          peers := GroupState.replace members
          endpoints := Function.update book localId (some ⟨p.endpoints, none⟩) })) ∧
    ∀ err, joinGroup localId requestId response = .error err →
      bring localId s joiner sourceIp requestId weather book p.text files =
        some (.error (.call err), files) := by
  have hask : ask localId s joiner sourceIp weather localId
      (.join requestId (toHex p.secret) joiner.toText) = .ok response := by
    rw [ask, if_pos rfl, hrequest]
  rw [bring, joinGroupCommand, hreads.2]
  dsimp only [bind, Option.bind]
  rw [if_neg hreads.1, hask]
  dsimp only
  constructor
  · intro members hmembers
    rw [hmembers]
    rfl
  · intro err herr
    rw [herr]
    rfl

/-- The invite is used up, and the joiner is in the ledger. -/
theorem next_join_of_found {joiner : NodeId} {secret : Str} {now : Nat}
    (hfound : consumeInvite (s.loading (calm now)) secret = .ok true) (sourceIp : IpAddr)
    (requestId : Nat) :
    ∃ s', s.next localId (.join joiner sourceIp requestId secret joiner.toText (calm now)) =
        some s' ∧ s'.used = s.used ++ [(joiner, secret)] ∧
      s'.server.group = (s.server.group.addActivePeer joiner (.ok ())).2 := by
  rw [next_join, handleRequest_join_of_found hfound rfl, hfound, Option.map_some,
    if_neg (not_not_intro rfl)]
  exact ⟨_, rfl, rfl, rfl⟩

/-- Who takes an unused ticket in time is let in. -/
theorem Sound.joined (hs : Sound localId s) {p : PrintedTicket} (hp : p ∈ s.printed)
    (hlt : s.latest < p.expiresAtMs) (hunused : ¬ s.Used (hashSecret (toHex p.secret)))
    (joiner : NodeId) (sourceIp : IpAddr) (requestId : Nat) {now : Nat} (book : AddressBook)
    (files : GroupFiles) (hnow : now < p.expiresAtMs) :
    ∃ s' files', s.next localId (.join joiner sourceIp requestId (toHex p.secret) joiner.toText
        (calm now)) = some s' ∧
      s'.Used (hashSecret (toHex p.secret)) ∧
      bring localId s joiner sourceIp requestId (calm now) book p.text files =
        some (.ok (), files') ∧
      Joined localId joiner p.endpoints s'.server.group files' := by
  have hfound : ((InviteOp.consume (toHex p.secret)).edit s.files.invites now).2 = true :=
    InviteSystem.found_consume.mpr ⟨_, hs.kept p hp hlt hunused, hnow, rfl⟩
  have hconsume := s.consumeInvite_calm now (toHex p.secret)
  rw [hfound] at hconsume
  have hrequest : handleRequest s.server joiner sourceIp (s.loading (calm now))
      (.join requestId (toHex p.secret) joiner.toText) = some (_, _) :=
    handleRequest_join_of_found hconsume rfl sourceIp requestId
  have hkeyed := LedgerSystem.keyed_addActivePeer hs.keyed joiner (.ok ())
  have hactive := GroupState.isActiveMember_addActivePeer s.server.group joiner (.ok ())
  have hmem : joiner.toText ∈ (s.server.group.addActivePeer joiner (.ok ())).2.members := by
    rw [Std.ExtTreeMap.mem_iff_isSome_getElem?]
    obtain ⟨e, he, -⟩ := (Option.any_eq_true _ _).mp hactive
    rw [he]
    rfl
  obtain ⟨g, hload, hmembers⟩ := GroupState.loadOrInit_savePeersFile hkeyed hmem
  obtain ⟨hgkeyed, hg⟩ := LedgerSystem.keyed_loadOrInit hload
  obtain ⟨s', hnext, hused, hgroup⟩ := next_join_of_found hconsume sourceIp requestId
  have haccept : joinGroup localId requestId (.joinAccepted requestId
      (s.server.group.addActivePeer joiner (.ok ())).2.memberList) =
      .ok (s.server.group.addActivePeer joiner (.ok ())).2.memberList :=
    acceptResponse_of_pick rfl
  have hbring := (bring_of_reads (hs.reads p hp) joiner sourceIp requestId (calm now) book files
    hrequest).1 _ haccept
  refine ⟨s', _, hnext, ?_, hbring, ?_⟩
  · exact ⟨(joiner, toHex p.secret), hused ▸ List.mem_append_right _ (List.mem_singleton_self _),
      rfl⟩
  · rw [hgroup]
    refine ⟨hactive, ?_, Function.update_self .., g, hload, hmembers, ?_⟩
    · intro hne
      exact GroupState.mem_activePeers_of_active hkeyed hne hactive
    · intro hne hlisted
      apply GroupState.mem_activePeers_of_active hgkeyed
      · rw [hg]
        intro heq
        exact hne (NodeId.toText_injective heq).symm
      · rwa [GroupState.isActiveMember, hmembers]

/-- Nobody finds an invite that was used. -/
theorem Sound.not_found (hs : Sound localId s) {secret : Str} (hused : s.Used (hashSecret secret))
    (weather : JoinWeather) : consumeInvite (s.loading weather) secret ≠ .ok true := by
  intro hfound
  rcases consume_cases s.files.invites secret (s.invites_loading weather) with
    ⟨hnot, -⟩ | ⟨now, -, hconsume, -⟩
  · rw [hfound] at hnot
    exact hnot rfl
  · rw [hfound] at hconsume
    obtain ⟨i, hi, -, hhash⟩ := InviteSystem.found_consume.mp (Except.ok.inj hconsume).symm
    exact hs.gone i hi (hhash ▸ hused)

/-- Who takes a used ticket is refused. -/
theorem Sound.refused (hs : Sound localId s) {p : PrintedTicket} (hreads : Reads localId p)
    (hused : s.Used (hashSecret (toHex p.secret))) (joiner : NodeId) (sourceIp : IpAddr)
    (requestId : Nat) (weather : JoinWeather) (book : AddressBook) (files : GroupFiles) :
    bring localId s joiner sourceIp requestId weather book p.text files =
        some (.error (.call (.rejected .invalidTicket)), files) ∨
      ∃ err, consumeInvite (s.loading weather) (toHex p.secret) = .error err ∧
        bring localId s joiner sourceIp requestId weather book p.text files =
          some (.error (.call (.rejected (.couldNotValidate err))), files) := by
  have hreject : ∀ reason, joinGroup localId requestId (.joinRejected requestId reason) =
      .error (.rejected reason) := fun _ ↦ acceptResponse_of_pick rfl
  cases hconsume : consumeInvite (s.loading weather) (toHex p.secret) with
  | error err =>
    refine .inr ⟨err, rfl, ?_⟩
    exact (bring_of_reads hreads joiner sourceIp requestId weather book files
      (handleRequest_join_of_error hconsume sourceIp requestId)).2 _ (hreject _)
  | ok found =>
    have hnot := hs.not_found hused weather
    rw [hconsume] at hnot
    obtain rfl : found = false := by
      rw [← Bool.not_eq_true]
      rintro rfl
      exact hnot rfl
    exact .inl ((bring_of_reads hreads joiner sourceIp requestId weather book files
      (handleRequest_join_of_not_found hconsume sourceIp requestId)).2 _ (hreject _))

/-- In every run, a ticket that was printed and not used lets in whoever takes it before it
expires: the joiner and the node are then in the same ledger, and the joiner knows where the
node is.  Once its secret was used, it is refused for good, whatever goes wrong at the node, and
changes nothing. -/
theorem ticket_of_reachable (h : (machine localId).Reachable s) {p : PrintedTicket}
    (hp : p ∈ s.printed) :
    (s.latest < p.expiresAtMs → ¬ s.Used (hashSecret (toHex p.secret)) →
      ∀ (joiner : NodeId) (sourceIp : IpAddr) (requestId now : Nat) (book : AddressBook)
        (files : GroupFiles), now < p.expiresAtMs → ∃ s' files',
          s.next localId (.join joiner sourceIp requestId (toHex p.secret) joiner.toText
            (calm now)) = some s' ∧
          s'.Used (hashSecret (toHex p.secret)) ∧
          bring localId s joiner sourceIp requestId (calm now) book p.text files =
            some (.ok (), files') ∧
          Joined localId joiner p.endpoints s'.server.group files') ∧
    (s.Used (hashSecret (toHex p.secret)) →
      ∀ s', Relation.ReflTransGen (machine localId).step s s' →
        ∀ (joiner : NodeId) (sourceIp : IpAddr) (requestId : Nat) (weather : JoinWeather)
          (book : AddressBook) (files : GroupFiles),
          bring localId s' joiner sourceIp requestId weather book p.text files =
              some (.error (.call (.rejected .invalidTicket)), files) ∨
            ∃ err, consumeInvite (s'.loading weather) (toHex p.secret) = .error err ∧
              bring localId s' joiner sourceIp requestId weather book p.text files =
                some (.error (.call (.rejected (.couldNotValidate err))), files)) := by
  have hs := sound_of_run h
  constructor
  · intro hlt hunused joiner sourceIp requestId now book files hnow
    exact hs.joined hp hlt hunused joiner sourceIp requestId book files hnow
  · intro hused s' hsteps
    have hused' : s'.Used (hashSecret (toHex p.secret)) := by
      refine Machine.steps_invariant (I := fun s ↦ s.Used (hashSecret (toHex p.secret))) ?_ hused
        hsteps
      rintro s₁ s₂ hu ⟨act, -, hnext⟩
      exact hu.next hnext
    exact (sound_of_run (h.steps hsteps)).refused (hs.reads p hp) hused'

/-! ### The first member invites another -/

section Alone

/-- The node 1 is active. -/
def aloneEntries : List MemberEntry := [⟨(GroupState.exampleId 1).toText, .active, 1⟩]

/-- The node 1, alone in its group. -/
def alone : Inviter Unit Unit where
  files := ⟨.missing, [], fun _ ↦ none, none⟩
  server := ⟨(Node.blank [lit "s"] (lit "A") ()).folder, ⟨(GroupState.exampleId 1).toText,
    Std.ExtTreeMap.ofList (aloneEntries.map fun e ↦ (e.id, e))⟩, []⟩
  latest := 0
  printed := []
  used := []

/-- Where it can be reached. -/
def aloneAt : List Str := [lit "10.0.0.1:7420"]

/-- Its command line, one second after the epoch. -/
def oneSecond : InviteCommandWeather :=
  ⟨.ok (), fun _ ↦ [], .ok (.replicate 32 7), .ok 1000, .ok (), .ok 1000, .ok ()⟩

theorem starting_alone : Starting alone := ⟨LedgerSystem.keyed_ofList aloneEntries, rfl, rfl⟩

omit [Blake3] in
/-- Another node takes the ticket a second later. -/
theorem ticket_of_reachable_alone :
    let _ : Blake3 := Blake3.reference
    ∃ (s : Inviter Unit Unit) (p : PrintedTicket),
      alone.next (GroupState.exampleId 1) (.invite 3600 aloneAt oneSecond) = some s ∧
      p ∈ s.printed ∧ ∀ files, ∃ (s' : Inviter Unit Unit) (files' : GroupFiles),
        bring (GroupState.exampleId 1) s (GroupState.exampleId 2) () 1 (calm 2000) (fun _ ↦ none)
          p.text files = some (.ok (), files') ∧
        Joined (GroupState.exampleId 1) (GroupState.exampleId 2) aloneAt s'.server.group
          files' := by
  intro _
  obtain ⟨text, henc, -, -⟩ := parseJoinTicket_encodeTicket (GroupState.exampleId 1)
    (.replicate 32 7) (show ∀ e ∈ aloneAt, Utf8.valid e by decide +kernel) (by decide +kernel)
    (by decide +kernel) (by decide +kernel)
  have hnext : alone.next (GroupState.exampleId 1) (.invite 3600 aloneAt oneSecond) = some _ :=
    next_invite alone
  have htext : (createInvite (GroupState.exampleId 1) 3600 aloneAt oneSecond alone.files).1 =
      some (.ok text) := henc
  rw [htext] at hnext
  have hproper : Proper alone (.invite 3600 aloneAt oneSecond) := by
    constructor
    · rintro endpoints hends
      obtain rfl : aloneAt = endpoints := Except.ok.inj hends
      decide +kernel
    · rintro - - ⟨u, hu, -⟩
      exact absurd hu List.not_mem_nil
  refine ⟨_, ⟨text, aloneAt, .replicate 32 7, expiresAt 1000 3600⟩, hnext,
    List.mem_singleton_self _, fun files ↦ ?_⟩
  have hlatest : max 0 1000 < expiresAt 1000 3600 := by decide
  have hnow : 2000 < expiresAt 1000 3600 := by decide
  have hticket := ticket_of_reachable (.step (.init starting_alone) ⟨_, hproper, hnext⟩)
    (List.mem_singleton_self _)
  obtain ⟨s', files', -, -, hbring, hjoined⟩ := hticket.1 hlatest
    (by
      rintro ⟨u, hu, -⟩
      exact absurd hu List.not_mem_nil)
    (GroupState.exampleId 2) () 1 2000 (fun _ ↦ none) files hnow
  exact ⟨s', files', hbring, hjoined⟩

end Alone

end Inviter

end Lilsync
