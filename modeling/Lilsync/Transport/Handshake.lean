import Lilsync.Identity
import Lilsync.Lib.Machine
import Lilsync.Transport

/-!
# Who is at the other end

`connect` and `accept`: a Noise handshake without static keys, and after it each end
sends a signature of the handshake hash.  Any number of nodes open any number of
connections; the network is in the hands of somebody who relays, drops, changes and
makes up messages, and who takes part in handshakes too.

Noise and the signatures are given.  That nobody breaks them is an assumption on the
steps of a run (`Peering.Unbroken`): keys are new, what decrypts was encrypted by the
owner of the other key, and what verifies under the key of an honest node was signed by
it.
-/

namespace Lilsync

open Lilsync.Lib Lilsync.Lib.Proc

/-! ## Signatures of the handshake hash -/

/-- `AuthPayload`. -/
structure AuthPayload where
  nodeId : Str
  signature : List UInt8
deriving DecidableEq

/-- What `serde_json` writes a payload as, and what it reads one from. -/
structure AuthJson where
  toVec : AuthPayload → IoResult (List UInt8)
  fromSlice : List UInt8 → IoResult AuthPayload

/-- `ed25519-dalek`. -/
structure Ed25519 (Key : Type) where
  /-- The bytes of the verifying key. -/
  nodeId : Key → NodeId
  sign : Key → List UInt8 → Vector UInt8 64
  verify : NodeId → List UInt8 → Vector UInt8 64 → IoResult Unit

/-- The handshakes of `snow`, after the pattern `NN`. -/
structure Noise (E : Type) where
  publicKey : E → List UInt8
  /-- The message of the initiator. -/
  first : E → List UInt8
  /-- The message of the responder, if it can read the first one. -/
  second : E → List UInt8 → Option (List UInt8)
  /-- The initiator can read the message of the responder. -/
  finish : E → List UInt8 → Bool
  /-- The public key that a message carries. -/
  keyIn : List UInt8 → List UInt8
  handshakeHash : List UInt8 → List UInt8 → List UInt8

/-- The messages carry the keys in the open, and the hash has no collisions. -/
structure Noise.Lawful {E : Type} (noise : Noise E) : Prop where
  keyIn_first : ∀ e, noise.keyIn (noise.first e) = noise.publicKey e
  keyIn_second : ∀ e m m', noise.second e m = some m' → noise.keyIn m' = noise.publicKey e
  hash_inj : ∀ m₁ m₂ m₁' m₂', noise.handshakeHash m₁ m₂ = noise.handshakeHash m₁' m₂' →
    m₁ = m₁' ∧ m₂ = m₂'

/-- Why `recv_auth` fails. -/
inductive AuthError where
  /-- The payload cannot be received. -/
  | conn (err : IoError)
  /-- The node id cannot be parsed. -/
  | nodeId (text : Str)
  /-- `invalid signature length` -/
  | signatureLength (length : Nat)
  /-- The key or the signature is invalid. -/
  | verify (err : IoError)

/-- `auth_message`. -/
def authMessage (nodeId : NodeId) (handshakeHash : List UInt8) : List UInt8 :=
  lit "lilsync-noise-auth-v1" ++ nodeId.bytes.toList ++ handshakeHash

theorem authMessage_injective {p : NodeId} {hash hash' : List UInt8}
    (h : authMessage p hash = authMessage p hash') : hash = hash' :=
  List.append_cancel_left h

section Auth

variable {Key : Type} (ed : Ed25519 Key) (json : AuthJson)

/-- `send_auth`. -/
def sendAuth (identity : Key) (handshakeHash : List UInt8) : Conn Unit :=
  sendJson (json.toVec ⟨(ed.nodeId identity).toText,
    (ed.sign identity (authMessage (ed.nodeId identity) handshakeHash)).toList⟩)

/-- What `recv_auth` makes of a payload. -/
def checkAuth (handshakeHash : List UInt8) (payload : AuthPayload) : Except AuthError NodeId :=
  match NodeId.fromText payload.nodeId with
  | none => .error (.nodeId payload.nodeId)
  | some nodeId =>
    if h : payload.signature.length = 64 then
      match ed.verify nodeId (authMessage nodeId handshakeHash) ⟨payload.signature.toArray, h⟩ with
      | .ok () => .ok nodeId
      | .error err => .error (.verify err)
    else .error (.signatureLength payload.signature.length)

/-- `recv_auth`. -/
def recvAuth (handshakeHash : List UInt8) : Proc AuthError NoiseConnection NodeId :=
  Proc.ofExec fun conn ↦
    let (result, conn) := exec (recvJson json.fromSlice) conn
    match result with
    | .ok payload => (checkAuth ed handshakeHash payload, conn)
    | .error err => (.error (.conn err), conn)

end Auth

/-! ## Sessions -/

inductive Role where
  | initiator
  | responder
deriving DecidableEq

/-- How far `connect` or `accept` has got. -/
inductive Phase where
  /-- The initiator waits for the message of the responder. -/
  | greeting
  /-- It waits for the signature. -/
  | awaiting
  /-- It has returned a connection. -/
  | established (peer : NodeId)
  | failed
deriving DecidableEq

/-- One end of a connection, at a node that runs this program. -/
structure Session (E Key : Type) where
  identity : Key
  role : Role
  ephemeral : E
  /-- The handshake message that it wrote. -/
  written : List UInt8
  /-- The handshake message that it read. -/
  read : Option (List UInt8)
  conn : NoiseConnection
  phase : Phase
  /-- Ghost: the chunks it has received. -/
  delivered : List (List UInt8)

/-- The two handshake messages, once they are known. -/
def Session.transcript {E Key : Type} (s : Session E Key) : Option (List UInt8 × List UInt8) :=
  s.read.map fun message ↦ match s.role with
    | .initiator => (s.written, message)
    | .responder => (message, s.written)

/-- The sessions of the nodes. -/
structure Peering (E Key : Type) where
  sessions : List (Session E Key)
  /-- Ghost: what has been signed, with the node that did. -/
  signed : List (NodeId × List UInt8)

/-- What can happen. -/
inductive PeeringAct (E Key : Type) where
  /-- A node starts to connect. -/
  | dial (identity : Key) (ephemeral : E) (writeError : Nat → Option IoError)
  /-- A node has accepted a stream, and reads a first message. -/
  | answer (identity : Key) (ephemeral : E) (writeError : Nat → Option IoError)
      (message : List UInt8)
  /-- An initiator reads a second message. -/
  | finish (session : Nat) (message : List UInt8)
  /-- A chunk arrives, and can be decrypted. -/
  | deliver (session : Nat) (chunk : List UInt8)
  /-- The signature is received.  What has not arrived yet does not arrive any more. -/
  | authenticate (session : Nat)
  /-- The program receives and sends on a connection. -/
  | use (session : Nat) (conn : NoiseConnection)

namespace Peering

variable {E Key : Type} (noise : Noise E) (ed : Ed25519 Key) (json : AuthJson)

/-- The hash of a transcript. -/
def hashOf (transcript : List UInt8 × List UInt8) : List UInt8 :=
  noise.handshakeHash transcript.1 transcript.2

/-- A session signs the hash and sends the signature.  It is then in the given phase. -/
def signHash (net : Peering E Key) (i : Nat) (s : Session E Key) (hash : List UInt8)
    (phase : Phase) : Peering E Key :=
  let (result, conn) := exec (sendAuth ed json s.identity hash) s.conn
  ⟨net.sessions.set i { s with conn, phase := if result.isOk then phase else .failed },
    net.signed ++ [(ed.nodeId s.identity, authMessage (ed.nodeId s.identity) hash)]⟩

/-- What an action leads to, if it can happen. -/
def next (net : Peering E Key) : PeeringAct E Key → Option (Peering E Key)
  | .dial identity e writeError => some { net with sessions := net.sessions ++
      [⟨identity, .initiator, e, noise.first e, none, ⟨[], [], [], writeError⟩, .greeting, []⟩] }
  | .answer identity e writeError message => (noise.second e message).map fun written ↦
      { net with sessions := net.sessions ++
        [⟨identity, .responder, e, written, some message, ⟨[], [], [], writeError⟩, .awaiting,
          []⟩] }
  | .finish i message => net.sessions[i]?.bind fun s ↦
    if s.phase = .greeting ∧ noise.finish s.ephemeral message then
      some (net.signHash ed json i { s with read := some message }
        (noise.handshakeHash s.written message) .awaiting)
    else none
  | .deliver i chunk => net.sessions[i]?.bind fun s ↦
    if s.phase = .greeting ∨ s.phase = .failed then none
    else some { net with sessions := net.sessions.set i { s with
      conn := { s.conn with inbound := s.conn.inbound ++ [.ok chunk] }
      delivered := s.delivered ++ [chunk] } }
  | .authenticate i => net.sessions[i]?.bind fun s ↦ s.transcript.bind fun transcript ↦
    if s.phase ≠ .awaiting then none
    else
      match exec (recvAuth ed json (hashOf noise transcript)) s.conn, s.role with
      | (.ok peer, conn), .initiator => some { net with
          sessions := net.sessions.set i { s with conn, phase := .established peer } }
      | (.ok peer, conn), .responder => some (net.signHash ed json i { s with conn }
          (hashOf noise transcript) (.established peer))
      | (.error _, _), _ =>
        some { net with sessions := net.sessions.set i { s with phase := .failed } }
  | .use i conn => net.sessions[i]?.bind fun s ↦
    match s.phase with
    | .established _ =>
      if s.conn.outbound <+: conn.outbound ∧ conn.unread <:+ s.conn.unread then
        some { net with sessions := net.sessions.set i { s with conn } }
      else none
    | _ => none

/-- Nobody has used the key, or sent it. -/
def Unused (net : Peering E Key) (e : E) : Prop :=
  ∀ s ∈ net.sessions, noise.publicKey s.ephemeral ≠ noise.publicKey e ∧
    ∀ m ∈ s.read, noise.keyIn m ≠ noise.publicKey e

instance (net : Peering E Key) (e : E) : Decidable (Unused noise net e) :=
  inferInstanceAs (Decidable (∀ s ∈ net.sessions,
    noise.publicKey s.ephemeral ≠ noise.publicKey e ∧
      ∀ m ∈ s.read, noise.keyIn m ≠ noise.publicKey e))

/-- What Noise and the signatures promise of a step. -/
def Unbroken (honest : NodeId → Prop) (net : Peering E Key) : PeeringAct E Key → Prop
  | .dial _ e _ => Unused noise net e
  | .answer _ e _ message => Unused noise net e ∧ noise.keyIn message ≠ noise.publicKey e
  -- the chunk is the next one that the owner of the other key has encrypted, after the same
  -- handshake and for this direction
  | .deliver i chunk => ∀ s ∈ net.sessions[i]?, ∀ m ∈ s.read, ∀ s' ∈ net.sessions,
    noise.publicKey s'.ephemeral = noise.keyIn m → s'.role ≠ s.role ∧
      s'.transcript = s.transcript ∧ s'.conn.outbound[s.delivered.length]? = some chunk
  -- a signature of an honest node was made by it
  | .authenticate i => ∀ s ∈ net.sessions[i]?, ∀ transcript ∈ s.transcript,
    ∀ peer ∈ (exec (recvAuth ed json (hashOf noise transcript)) s.conn).1.toOption, honest peer →
      (peer, authMessage peer (hashOf noise transcript)) ∈ net.signed
  | .finish _ _ | .use _ _ => True

instance (honest : NodeId → Prop) [DecidablePred honest] (net : Peering E Key) :
    (act : PeeringAct E Key) → Decidable (net.Unbroken noise ed json honest act)
  | .dial _ e _ => inferInstanceAs (Decidable (Unused noise net e))
  | .answer _ e _ message => inferInstanceAs (Decidable (Unused noise net e ∧
      noise.keyIn message ≠ noise.publicKey e))
  | .deliver i chunk => inferInstanceAs (Decidable (∀ s ∈ net.sessions[i]?, ∀ m ∈ s.read,
      ∀ s' ∈ net.sessions, noise.publicKey s'.ephemeral = noise.keyIn m → s'.role ≠ s.role ∧
        s'.transcript = s.transcript ∧ s'.conn.outbound[s.delivered.length]? = some chunk))
  | .authenticate i => inferInstanceAs (Decidable (∀ s ∈ net.sessions[i]?,
      ∀ transcript ∈ s.transcript,
      ∀ peer ∈ (exec (recvAuth ed json (hashOf noise transcript)) s.conn).1.toOption, honest peer →
        (peer, authMessage peer (hashOf noise transcript)) ∈ net.signed))
  | .finish _ _ | .use _ _ => isTrue trivial

/-- The network, in runs in which nobody breaks Noise or a signature. -/
def machine (honest : NodeId → Prop) : Machine (Peering E Key) :=
  .ofActions (· = ⟨[], []⟩) (next noise ed json) (Unbroken noise ed json honest)

end Peering

/-! ## What a session becomes -/

section Follows

variable {E Key : Type}

/-- A session is another one, later. -/
structure Session.Follows (s s' : Session E Key) : Prop where
  identity_eq : s'.identity = s.identity
  role_eq : s'.role = s.role
  ephemeral_eq : s'.ephemeral = s.ephemeral
  written_eq : s'.written = s.written
  read : ∀ m, s.read = some m → s'.read = some m
  outbound : s.conn.outbound <+: s'.conn.outbound
  signs : s.read.isSome → s.phase ≠ .awaiting → s'.phase ≠ .awaiting

namespace Session

variable {s s' : Session E Key}

theorem Follows.refl (s : Session E Key) : s.Follows s :=
  ⟨rfl, rfl, rfl, rfl, fun _ h ↦ h, List.prefix_rfl, fun _ h ↦ h⟩

theorem Follows.transcript {t : List UInt8 × List UInt8} (h : s.Follows s')
    (ht : s.transcript = some t) : s'.transcript = some t := by
  obtain ⟨m, hm, rfl⟩ := Option.map_eq_some_iff.mp ht
  rw [Session.transcript, h.read m hm, h.role_eq, h.written_eq]
  rfl

theorem isSome_transcript {m : List UInt8} (h : s.read = some m) :
    ∃ t, s.transcript = some t := by
  rw [Session.transcript, h]
  exact ⟨_, rfl⟩

/-- The two ends of a handshake have read what the other end wrote. -/
theorem read_eq_of_transcript_eq {t : List UInt8 × List UInt8} (hs : s.transcript = some t)
    (hs' : s'.transcript = some t) (hrole : s'.role ≠ s.role) : s.read = some s'.written := by
  obtain ⟨m, hm, rfl⟩ := Option.map_eq_some_iff.mp hs
  obtain ⟨m', hm', heq⟩ := Option.map_eq_some_iff.mp hs'
  cases hr : s.role <;> cases hr' : s'.role <;> rw [hr, hr'] at heq
  · exact absurd (hr'.trans hr.symm) hrole
  · rw [hm, (Prod.mk.inj heq).2]
  · rw [hm, (Prod.mk.inj heq).1]
  · exact absurd (hr'.trans hr.symm) hrole

/-- Two sessions at the same end have written the same. -/
theorem written_eq_of_transcript_eq {t : List UInt8 × List UInt8} (hs : s.transcript = some t)
    (hs' : s'.transcript = some t) (hrole : s'.role = s.role) : s'.written = s.written := by
  obtain ⟨m, hm, rfl⟩ := Option.map_eq_some_iff.mp hs
  obtain ⟨m', hm', heq⟩ := Option.map_eq_some_iff.mp hs'
  rw [hrole] at heq
  cases hr : s.role <;> rw [hr] at heq
  · exact (Prod.mk.inj heq).1
  · exact (Prod.mk.inj heq).2

end Session

end Follows

/-! ## The invariant -/

namespace Peering

section Sound

variable {E Key : Type} {noise : Noise E} {ed : Ed25519 Key} {json : AuthJson}
  {honest : NodeId → Prop} {net net' : Peering E Key} {i : Nat} {s s₁ : Session E Key}

/-- A session has received from the owner of the other key only, and only after the same
handshake. -/
def Receives (noise : Noise E) (s s' : Session E Key) : Prop :=
  ∀ m, s.read = some m → noise.publicKey s'.ephemeral = noise.keyIn m → s.delivered = [] ∨
    s'.role ≠ s.role ∧ s'.transcript = s.transcript ∧ s.delivered <+: s'.conn.outbound

/-- Somebody with the hash of this session is the peer. -/
def Vouches (noise : Noise E) (ed : Ed25519 Key) (net : Peering E Key) (i : Nat)
    (s : Session E Key) (peer : NodeId) : Prop :=
  ∃ t, s.transcript = some t ∧ ∃ (j : Nat) (s' : Session E Key) (t' : List UInt8 × List UInt8),
    net.sessions[j]? = some s' ∧ ed.nodeId s'.identity = peer ∧ s'.transcript = some t' ∧
    hashOf noise t' = hashOf noise t ∧ (j = i → s.role = .initiator)

/-- A session has signed this message. -/
def Signs (noise : Noise E) (ed : Ed25519 Key) (s : Session E Key)
    (x : NodeId × List UInt8) : Prop :=
  ed.nodeId s.identity = x.1 ∧ (∃ t, s.transcript = some t ∧
    x.2 = authMessage x.1 (hashOf noise t)) ∧ (s.role = .initiator ∨ s.phase ≠ .awaiting)

/-- A session that waits for the second handshake message. -/
def Greets (s : Session E Key) : Prop :=
  (s.phase = .greeting → s.role = .initiator ∧ s.read = none ∧ s.delivered = []) ∧
    (s.phase ≠ .greeting → s.read.isSome)

/-- What holds of the sessions. -/
structure Sound (noise : Noise E) (ed : Ed25519 Key) (honest : NodeId → Prop)
    (net : Peering E Key) : Prop where
  key_inj : ∀ (i j : Nat) (s s' : Session E Key), net.sessions[i]? = some s →
    net.sessions[j]? = some s' → noise.publicKey s.ephemeral =
      noise.publicKey s'.ephemeral → i = j
  written : ∀ s ∈ net.sessions, noise.keyIn s.written = noise.publicKey s.ephemeral
  greets : ∀ s ∈ net.sessions, Greets s
  receives : ∀ s ∈ net.sessions, ∀ s' ∈ net.sessions, Receives noise s s'
  signed : ∀ x ∈ net.signed, ∃ (i : Nat) (s : Session E Key), net.sessions[i]? = some s ∧
    Signs noise ed s x
  vouches : ∀ (i : Nat) (s : Session E Key) (peer : NodeId), net.sessions[i]? = some s →
    s.phase = .established peer → honest peer → Vouches noise ed net i s peer

theorem Signs.follows {x : NodeId × List UInt8} (h : Signs noise ed s x) (hs : s.Follows s₁) :
    Signs noise ed s₁ x := by
  obtain ⟨hid, ⟨t, ht, hx⟩, hphase⟩ := h
  refine ⟨hs.identity_eq ▸ hid, ⟨t, hs.transcript ht, hx⟩, ?_⟩
  obtain ⟨m, hm, -⟩ := Option.map_eq_some_iff.mp ht
  exact hphase.imp (fun h ↦ hs.role_eq.trans h) (hs.signs (hm ▸ rfl))

/-- The other session goes on. -/
theorem Receives.follows {s' s'' : Session E Key} (h : Receives noise s s')
    (hs' : s'.Follows s'') : Receives noise s s'' := by
  intro m hm hkey
  refine (h m hm (hs'.ephemeral_eq ▸ hkey)).imp_right ?_
  rintro ⟨hrole, htr, hpre⟩
  obtain ⟨t, ht⟩ := Session.isSome_transcript hm
  refine ⟨hs'.role_eq ▸ hrole, ?_, hpre.trans hs'.outbound⟩
  rw [ht, hs'.transcript (htr.trans ht)]

/-- A network in which one session has gone on. -/
theorem Sound.set (h : net.Sound noise ed honest) (hi : net.sessions[i]? = some s)
    (s₁ : Session E Key) (l : List (NodeId × List UInt8)) (hs : s.Follows s₁)
    (hphase : s₁.phase ≠ .greeting) (hread : s₁.read.isSome)
    (hreceives : ∀ s' ∈ net.sessions, Receives noise s₁ s')
    (hl : ∀ x ∈ l, Signs noise ed s₁ x)
    (hvouches : ∀ peer, s₁.phase = .established peer → honest peer →
      Vouches noise ed net i s₁ peer) :
    Sound noise ed honest ⟨net.sessions.set i s₁, net.signed ++ l⟩ := by
  have hlt : i < net.sessions.length := (List.getElem?_eq_some_iff.mp hi).1
  have hself : (net.sessions.set i s₁)[i]? = some s₁ := List.getElem?_set_self hlt
  -- each session was there before, and each that was there goes on
  have hold : ∀ j x', (net.sessions.set i s₁)[j]? = some x' →
      ∃ x, net.sessions[j]? = some x ∧ x.Follows x' ∧ (x' = x ∨ j = i ∧ x' = s₁) := by
    intro j x' hx'
    by_cases hj : j = i
    · subst hj
      obtain rfl := Option.some.inj (hself.symm.trans hx')
      exact ⟨s, hi, hs, .inr ⟨rfl, rfl⟩⟩
    · rw [List.getElem?_set_ne (Ne.symm hj)] at hx'
      exact ⟨x', hx', .refl x', .inl rfl⟩
  have hnew : ∀ (j : Nat) (x : Session E Key), net.sessions[j]? = some x →
      ∃ x', (net.sessions.set i s₁)[j]? = some x' ∧ x.Follows x' := by
    intro j x hx
    by_cases hj : j = i
    · subst hj
      obtain rfl := Option.some.inj (hi.symm.trans hx)
      exact ⟨s₁, hself, hs⟩
    · exact ⟨x, (List.getElem?_set_ne (Ne.symm hj)).trans hx, .refl x⟩
  have hmem : ∀ x' ∈ net.sessions.set i s₁, ∃ x : Session E Key, x ∈ net.sessions ∧
      x.Follows x' ∧ (x' = x ∨ x' = s₁) := by
    intro x' hx'
    obtain ⟨j, hj⟩ := List.mem_iff_getElem?.mp hx'
    obtain ⟨x, hx, hf, hcase⟩ := hold j x' hj
    exact ⟨x, List.mem_of_getElem? hx, hf, hcase.imp_right fun h ↦ h.2⟩
  have hgo {j : Nat} {x : Session E Key} {peer : NodeId} (hv : Vouches noise ed net j x peer) :
      Vouches noise ed ⟨net.sessions.set i s₁, net.signed ++ l⟩ j x peer := by
    obtain ⟨t, ht, k, y, t', hk, hid, ht', hhash, hself⟩ := hv
    obtain ⟨y', hy', hf⟩ := hnew k y hk
    exact ⟨t, ht, k, y', t', hy', hf.identity_eq ▸ hid, hf.transcript ht', hhash, hself⟩
  refine ⟨?_, ?_, ?_, ?_, ?_, ?_⟩
  · intro j k x' y' hj hk hkey
    obtain ⟨x, hx, hxf, -⟩ := hold j x' hj
    obtain ⟨y, hy, hyf, -⟩ := hold k y' hk
    exact h.key_inj j k x y hx hy (by rw [← hxf.ephemeral_eq, ← hyf.ephemeral_eq, hkey])
  · intro x' hx'
    obtain ⟨x, hx, hf, -⟩ := hmem x' hx'
    rw [hf.written_eq, hf.ephemeral_eq]
    exact h.written x hx
  · intro x' hx'
    obtain ⟨x, hx, -, rfl | rfl⟩ := hmem x' hx'
    · exact h.greets x' hx
    · exact ⟨fun hg ↦ absurd hg hphase, fun _ ↦ hread⟩
  · intro x' hx' y' hy'
    obtain ⟨y, hy, hyf, -⟩ := hmem y' hy'
    obtain ⟨x, hx, -, rfl | rfl⟩ := hmem x' hx'
    · exact (h.receives x' hx y hy).follows hyf
    · exact (hreceives y hy).follows hyf
  · intro x hx
    rcases List.mem_append.mp hx with hx | hx
    · obtain ⟨j, y, hj, hsigns⟩ := h.signed x hx
      obtain ⟨y', hy', hf⟩ := hnew j y hj
      exact ⟨j, y', hy', hsigns.follows hf⟩
    · exact ⟨i, s₁, hself, hl x hx⟩
  · intro j x' peer hj hest hpeer
    obtain ⟨x, hx, -, rfl | ⟨rfl, rfl⟩⟩ := hold j x' hj
    · exact hgo (h.vouches j x' peer hx hest hpeer)
    · exact hgo (hvouches peer hest hpeer)

/-- A network with a new session. -/
theorem Sound.append (h : net.Sound noise ed honest) (hunused : net.Unused noise s₁.ephemeral)
    (hwritten : noise.keyIn s₁.written = noise.publicKey s₁.ephemeral)
    (hself : ∀ m ∈ s₁.read, noise.keyIn m ≠ noise.publicKey s₁.ephemeral)
    (hgreets : Greets s₁) (hdelivered : s₁.delivered = [])
    (hphase : ∀ peer, s₁.phase ≠ .established peer) :
    Sound noise ed honest { net with sessions := net.sessions ++ [s₁] } := by
  have hcases : ∀ j x, (net.sessions ++ [s₁])[j]? = some x →
      net.sessions[j]? = some x ∨ j = net.sessions.length ∧ x = s₁ := by
    intro j x hj
    rcases lt_or_ge j net.sessions.length with hlt | hge
    · rw [List.getElem?_append_left hlt] at hj
      exact .inl hj
    · rw [List.getElem?_append_right hge, List.getElem?_singleton] at hj
      split at hj
      · exact .inr ⟨by omega, (Option.some.inj hj).symm⟩
      · cases hj
  have hkeep {j : Nat} {x : Session E Key} (hj : net.sessions[j]? = some x) :
      (net.sessions ++ [s₁])[j]? = some x :=
    (List.getElem?_append_left (List.getElem?_eq_some_iff.mp hj).1).trans hj
  refine ⟨?_, ?_, ?_, ?_, ?_, ?_⟩
  · intro j k x y hj hk hkey
    rcases hcases j x hj with hj' | ⟨rfl, rfl⟩ <;> rcases hcases k y hk with hk' | ⟨rfl, rfl⟩
    · exact h.key_inj j k x y hj' hk' hkey
    · exact absurd hkey (hunused x (List.mem_of_getElem? hj')).1
    · exact absurd hkey.symm (hunused y (List.mem_of_getElem? hk')).1
    · rfl
  · intro x hx
    rcases List.mem_append.mp hx with hx | hx
    · exact h.written x hx
    · exact List.mem_singleton.mp hx ▸ hwritten
  · intro x hx
    rcases List.mem_append.mp hx with hx | hx
    · exact h.greets x hx
    · exact List.mem_singleton.mp hx ▸ hgreets
  · intro x hx y hy m hm hkey
    rcases List.mem_append.mp hx with hx' | hx'
    · rcases List.mem_append.mp hy with hy' | hy'
      · exact h.receives x hx' y hy' m hm hkey
      · rw [List.mem_singleton.mp hy'] at hkey
        exact absurd hkey.symm ((hunused x hx').2 m hm)
    · exact .inl (List.mem_singleton.mp hx' ▸ hdelivered)
  · intro x hx
    obtain ⟨j, y, hj, hsigns⟩ := h.signed x hx
    exact ⟨j, y, hkeep hj, hsigns⟩
  · intro j x peer hj hest hpeer
    rcases hcases j x hj with hj | ⟨-, rfl⟩
    · obtain ⟨t, ht, k, y, t', hk, hrest⟩ := h.vouches j x peer hj hest hpeer
      exact ⟨t, ht, k, y, t', hkeep hk, hrest⟩
    · exact absurd hest (hphase peer)

/-! ## Every step -/

theorem outbound_sendAuth (identity : Key) (hash : List UInt8) (conn : NoiseConnection) :
    conn.outbound <+: (exec (sendAuth ed json identity hash) conn).2.outbound := by
  rcases exec_sendJson_cases (json.toVec ⟨(ed.nodeId identity).toText, (ed.sign identity
    (authMessage (ed.nodeId identity) hash)).toList⟩) conn with ⟨blob, -, -, h⟩ | ⟨err, cs, -, -, h⟩
  all_goals
    rw [sendAuth, h]
    exact List.prefix_append _ _

theorem advances_recvAuth {hash : List UInt8} {conn conn' : NoiseConnection} {peer : NodeId}
    (h : exec (recvAuth ed json hash) conn = (.ok peer, conn')) : conn.Advances conn' := by
  rw [recvAuth, exec_ofExec] at h
  cases hrun : exec (recvJson json.fromSlice) conn with
  | mk result conn₁ =>
    rw [hrun] at h
    cases result with
    | error err => cases h
    | ok payload =>
      obtain ⟨-, rfl⟩ := Prod.mk.inj h
      obtain ⟨-, -, -, -, hadv⟩ := of_exec_recvJson hrun
      exact hadv

/-- A session signs the hash of its transcript. -/
theorem Sound.signHash (h : net.Sound noise ed honest) (hi : net.sessions[i]? = some s)
    (s₁ : Session E Key) (phase : Phase) (hs : s.Follows s₁) {t : List UInt8 × List UInt8}
    (ht : s₁.transcript = some t) (hphase : phase ≠ .greeting)
    (hsigns : s₁.role = .initiator ∨ phase ≠ .awaiting)
    (hlater : s.read.isSome → s.phase ≠ .awaiting → phase ≠ .awaiting)
    (hreceives : ∀ s' ∈ net.sessions, Receives noise s₁ s')
    (hvouches : ∀ peer, phase = .established peer → honest peer →
      Vouches noise ed net i s₁ peer) :
    (net.signHash ed json i s₁ (hashOf noise t) phase).Sound noise ed honest := by
  rw [Peering.signHash]
  have hout : s₁.conn.outbound <+:
      (exec (sendAuth ed json s₁.identity (hashOf noise t)) s₁.conn).2.outbound :=
    outbound_sendAuth s₁.identity (hashOf noise t) s₁.conn
  generalize exec (sendAuth ed json s₁.identity (hashOf noise t)) s₁.conn = r at hout
  obtain ⟨result, conn⟩ := r
  obtain ⟨m, hm, -⟩ := Option.map_eq_some_iff.mp ht
  have hnot : ∀ p : Phase, phase ≠ p → p ≠ .failed →
      (if result.isOk then phase else .failed) ≠ p := by
    intro p hp hfailed
    split
    · exact hp
    · exact hfailed.symm
  refine h.set hi _ _ ⟨hs.identity_eq, hs.role_eq, hs.ephemeral_eq, hs.written_eq, hs.read,
    hs.outbound.trans hout, fun hr hp ↦ hnot _ (hlater hr hp) (by decide)⟩
    (hnot _ hphase (by decide)) (by rw [hm]; rfl) hreceives ?_ ?_
  · intro x hx
    obtain rfl := List.mem_singleton.mp hx
    exact ⟨rfl, ⟨t, ht, rfl⟩, hsigns.imp_right fun hp ↦ hnot _ hp (by decide)⟩
  · intro peer hpeer hhonest
    dsimp only at hpeer
    split at hpeer
    · exact hvouches peer hpeer hhonest
    · cases hpeer

theorem Sound.next (hnoise : noise.Lawful) (h : net.Sound noise ed honest)
    {act : PeeringAct E Key} (hunbroken : net.Unbroken noise ed json honest act)
    (hnext : net.next noise ed json act = some net') : net'.Sound noise ed honest := by
  cases act with
  | dial identity e writeError =>
    obtain rfl := Option.some.inj hnext
    exact h.append hunbroken (hnoise.keyIn_first e) (fun m hm ↦ by cases hm)
      ⟨fun _ ↦ ⟨rfl, rfl, rfl⟩, fun hne ↦ absurd rfl hne⟩ rfl fun _ hp ↦ by cases hp
  | answer identity e writeError message =>
    obtain ⟨written, hwritten, rfl⟩ := Option.map_eq_some_iff.mp hnext
    refine h.append hunbroken.1 (hnoise.keyIn_second e message written hwritten) ?_
      ⟨fun hp ↦ (by cases hp), fun _ ↦ rfl⟩ rfl fun _ hp ↦ by cases hp
    intro m hm
    obtain rfl := Option.some.inj hm
    exact hunbroken.2
  | finish i message =>
    obtain ⟨s, hi, hnext⟩ := Option.bind_eq_some_iff.mp hnext
    split at hnext
    · next hcond =>
      obtain rfl := Option.some.inj hnext
      obtain ⟨hrole, hread, hdelivered⟩ :=
        (h.greets s (List.mem_of_getElem? hi)).1 hcond.1
      have ht : ({ s with read := some message } : Session E Key).transcript =
          some (s.written, message) := by
        rw [Session.transcript, Option.map_some]
        dsimp only
        rw [hrole]
      refine h.signHash hi { s with read := some message } .awaiting
        ⟨rfl, rfl, rfl, rfl, ?_, List.prefix_rfl, fun _ hp ↦ hp⟩ ht (by decide) (.inl hrole) ?_
        (fun s' _ m _ _ ↦ .inl hdelivered) fun _ hp ↦ by cases hp
      · intro m hm
        rw [hread] at hm
        cases hm
      · intro hsome
        rw [hread] at hsome
        cases hsome
    · cases hnext
  | deliver i chunk =>
    obtain ⟨s, hi, hnext⟩ := Option.bind_eq_some_iff.mp hnext
    split at hnext
    · cases hnext
    · next hcond =>
      obtain rfl := Option.some.inj hnext
      rw [not_or] at hcond
      rw [← List.append_nil net.signed]
      refine h.set hi _ [] ⟨rfl, rfl, rfl, rfl, fun _ hm ↦ hm, List.prefix_rfl, fun _ hp ↦ hp⟩
        hcond.1 ((h.greets s (List.mem_of_getElem? hi)).2 hcond.1) ?_
        (fun _ hx ↦ absurd hx List.not_mem_nil) fun peer hp hhonest ↦
        h.vouches i s peer hi hp hhonest
      intro s' hs' m hm hkey
      obtain ⟨hrole, htr, hchunk⟩ := hunbroken s hi m hm s' hs' hkey
      refine .inr ⟨hrole, htr, ?_⟩
      have hpre : s.delivered <+: s'.conn.outbound := by
        rcases h.receives s (List.mem_of_getElem? hi) s' hs' m hm hkey with hnil | ⟨-, -, hpre⟩
        · rw [hnil]
          exact List.nil_prefix
        · exact hpre
      obtain ⟨rest, hrest⟩ := hpre
      rw [← hrest, List.getElem?_append_right le_rfl, Nat.sub_self] at hchunk
      cases rest with
      | nil => cases hchunk
      | cons c rest =>
        obtain rfl := Option.some.inj hchunk
        exact ⟨rest, by rw [← hrest]; simp⟩
  | authenticate i =>
    obtain ⟨s, hi, hnext⟩ := Option.bind_eq_some_iff.mp hnext
    obtain ⟨t, ht, hnext⟩ := Option.bind_eq_some_iff.mp hnext
    obtain ⟨m, hm, -⟩ := Option.map_eq_some_iff.mp ht
    split at hnext
    · cases hnext
    · next hphase =>
      rw [not_not] at hphase
      have hreceives := h.receives s (List.mem_of_getElem? hi)
      have hvouches : ∀ peer conn, exec (recvAuth ed json (hashOf noise t)) s.conn =
          (.ok peer, conn) → honest peer → Vouches noise ed net i s peer := by
        intro peer conn hrun hhonest
        obtain ⟨j, s', hj, hid, ⟨t', ht', hmsg⟩, hsigned⟩ :=
          h.signed _ (hunbroken s hi t ht peer (by rw [hrun]; rfl) hhonest)
        refine ⟨t, ht, j, s', t', hj, hid, ht', (authMessage_injective hmsg).symm, ?_⟩
        rintro rfl
        obtain rfl := Option.some.inj (hi.symm.trans hj)
        exact hsigned.resolve_right fun hne ↦ hne hphase
      split at hnext
      · next peer conn hrun hrole =>
        obtain rfl := Option.some.inj hnext
        rw [← List.append_nil net.signed]
        refine h.set hi { s with conn, phase := .established peer } []
          ⟨rfl, rfl, rfl, rfl, fun _ hm ↦ hm, ?_, fun _ _ hp ↦ (by cases hp)⟩
          (fun hp ↦ by cases hp) (by rw [hm]; rfl) hreceives
          (fun _ hx ↦ absurd hx List.not_mem_nil) ?_
        · rw [(advances_recvAuth hrun).outbound_eq]
        · intro peer' hpeer hhonest
          obtain rfl := Phase.established.inj hpeer
          exact hvouches peer conn hrun hhonest
      · next peer conn hrun hrole =>
        obtain rfl := Option.some.inj hnext
        refine h.signHash hi { s with conn } (.established peer)
          ⟨rfl, rfl, rfl, rfl, fun _ hm ↦ hm, ?_, fun _ hp ↦ hp⟩ ht (fun hp ↦ by cases hp)
          (.inr fun hp ↦ by cases hp) (fun _ _ hp ↦ by cases hp) hreceives ?_
        · rw [(advances_recvAuth hrun).outbound_eq]
        · intro peer' hpeer hhonest
          obtain rfl := Phase.established.inj hpeer
          exact hvouches peer conn hrun hhonest
      · obtain rfl := Option.some.inj hnext
        rw [← List.append_nil net.signed]
        exact h.set hi { s with phase := .failed } []
          ⟨rfl, rfl, rfl, rfl, fun _ hm ↦ hm, List.prefix_rfl, fun _ _ hp ↦ (by cases hp)⟩
          (fun hp ↦ by cases hp) (by rw [hm]; rfl) hreceives
          (fun _ hx ↦ absurd hx List.not_mem_nil) fun _ hp ↦ by cases hp
  | use i conn =>
    obtain ⟨s, hi, hnext⟩ := Option.bind_eq_some_iff.mp hnext
    split at hnext
    · next peer hphase =>
      split at hnext
      · next hcond =>
        obtain rfl := Option.some.inj hnext
        rw [← List.append_nil net.signed]
        have hgreets := h.greets s (List.mem_of_getElem? hi)
        have hne : s.phase ≠ .greeting := by
          rw [hphase]
          exact fun hp ↦ by cases hp
        exact h.set hi { s with conn } []
          ⟨rfl, rfl, rfl, rfl, fun _ hm ↦ hm, hcond.1, fun _ hp ↦ hp⟩ hne (hgreets.2 hne)
          (h.receives s (List.mem_of_getElem? hi)) (fun _ hx ↦ absurd hx List.not_mem_nil)
          fun peer hp hhonest ↦ h.vouches i s peer hi hp hhonest
      · cases hnext
    · cases hnext

theorem sound_sessions_of_reachable (hnoise : noise.Lawful)
    (h : (machine noise ed json honest).Reachable net) : net.Sound noise ed honest := by
  refine Machine.Reachable.invariant (M := machine noise ed json honest) ?_ ?_ h
  · rintro net rfl
    refine ⟨fun _ _ _ _ hi ↦ ?_, fun _ hs ↦ ?_, fun _ hs ↦ ?_, fun _ hs ↦ ?_, fun _ hx ↦ ?_,
      fun _ _ _ hi ↦ ?_⟩
    · cases hi
    · cases hs
    · cases hs
    · cases hs
    · cases hx
    · cases hi
  · rintro net net' - ih ⟨act, hunbroken, hnext⟩
    exact ih.next hnoise hunbroken hnext

/-- In every run, a connection whose peer is an honest node has a session of that node at its
other end, and no other: it has run the same handshake, and all that is received was sent by it,
in order.  Only an initiator can be taken in by its own reflection, and then the peer it sees is
itself. -/
theorem peer_of_reachable (hnoise : noise.Lawful)
    (h : (machine noise ed json honest).Reachable net) {peer : NodeId}
    (hi : net.sessions[i]? = some s) (hest : s.phase = .established peer) (hpeer : honest peer) :
    s.role = .initiator ∧ ed.nodeId s.identity = peer ∨
    ∃ j s', net.sessions[j]? = some s' ∧ j ≠ i ∧ ed.nodeId s'.identity = peer ∧
      s'.role ≠ s.role ∧ s'.transcript = s.transcript ∧ s.delivered <+: s'.conn.outbound ∧
      ∀ k s'', net.sessions[k]? = some s'' → s''.role ≠ s.role →
        s''.transcript = s.transcript → k = j := by
  have hsound := sound_sessions_of_reachable hnoise h
  obtain ⟨t, ht, j, s', t', hj, hid, ht', hhash, hself⟩ := hsound.vouches i s peer hi hest hpeer
  by_cases hji : j = i
  · subst hji
    obtain rfl := Option.some.inj (hi.symm.trans hj)
    exact .inl ⟨hself rfl, hid⟩
  obtain rfl : t' = t := Prod.ext_iff.mpr (hnoise.hash_inj _ _ _ _ hhash)
  have hrole : s'.role ≠ s.role := by
    intro hrole
    refine hji (hsound.key_inj j i s' s hj hi ?_)
    rw [← hsound.written s' (List.mem_of_getElem? hj), ← hsound.written s (List.mem_of_getElem? hi),
      Session.written_eq_of_transcript_eq ht ht' hrole]
  have hread := Session.read_eq_of_transcript_eq ht ht' hrole
  have hkey := hsound.written s' (List.mem_of_getElem? hj)
  refine .inr ⟨j, s', hj, hji, hid, hrole, ht'.trans ht.symm, ?_, ?_⟩
  · rcases hsound.receives s (List.mem_of_getElem? hi) s' (List.mem_of_getElem? hj) _ hread hkey.symm
      with hnil | ⟨-, -, hpre⟩
    · rw [hnil]
      exact List.nil_prefix
    · exact hpre
  · intro k s'' hk hrole' htr
    have hread' := Session.read_eq_of_transcript_eq ht (htr.trans ht) hrole'
    have hwritten := Option.some.inj (hread.symm.trans hread')
    refine hsound.key_inj k j s'' s' hk hj ?_
    rw [← hsound.written s'' (List.mem_of_getElem? hk), ← hkey, hwritten]

end Sound

/-! ## Two nodes -/

section Pair

/-- Keys of 32 equal bytes, and a hash that keeps everything. -/
def pairNoise : Noise UInt8 where
  publicKey e := List.replicate 32 e
  first e := List.replicate 32 e
  second e message :=
    if message.length = 32 then some (List.replicate 32 e ++ List.replicate 16 0) else none
  finish _ message := message.length = 48
  keyIn message := message.take 32
  handshakeHash first second := first.flatMap (fun b ↦ [1, b]) ++ 0 :: second

theorem lawful_pairNoise : pairNoise.Lawful where
  keyIn_first _ := rfl
  keyIn_second e m m' h := by
    dsimp only [pairNoise] at h
    split at h <;> cases h
    rfl
  hash_inj m₁ m₂ m₁' m₂' h := by
    dsimp only [pairNoise] at h
    induction m₁ generalizing m₁' with
    | nil =>
      cases m₁' with
      | nil => exact ⟨rfl, (List.cons.inj h).2⟩
      | cons b' m₁' => cases (List.cons.inj h).1
    | cons b m₁ ih =>
      cases m₁' with
      | nil => cases (List.cons.inj h).1
      | cons b' m₁' =>
        obtain ⟨hb, htail⟩ := List.cons.inj (List.cons.inj h).2
        obtain ⟨rfl, rfl⟩ := ih m₁' htail
        exact ⟨by rw [hb], rfl⟩

/-- Signatures that sum up the message. -/
def pairEd25519 : Ed25519 UInt8 where
  nodeId key := ⟨Vector.replicate 32 key⟩
  sign key message := Vector.replicate 64 (key + message.sum)
  verify nodeId message signature :=
    if signature = Vector.replicate 64 (nodeId.bytes[0] + message.sum) then .ok ()
    else .error (.ofKind .other)

/-- The payload that a node sends in the handshake of the nodes 1 and 2. -/
def pairPayload (key : UInt8) : AuthPayload :=
  ⟨(pairEd25519.nodeId key).toText, (pairEd25519.sign key (authMessage (pairEd25519.nodeId key)
    (pairNoise.handshakeHash (List.replicate 32 1)
      (List.replicate 32 2 ++ List.replicate 16 0)))).toList⟩

/-- A payload in JSON. -/
def payloadToVec (payload : AuthPayload) : List UInt8 :=
  lit "\x7b\"node_id\":\"" ++ payload.nodeId ++ lit "\",\"signature\":[" ++
    (lit ",").intercalate (payload.signature.map fun b ↦ lit (Nat.repr b.toNat)) ++
    lit "]\x7d"

/-- JSON, as far as that handshake needs it. -/
def pairJson : AuthJson where
  toVec payload := .ok (payloadToVec payload)
  fromSlice bytes :=
    match [1, 2].find? fun key ↦ payloadToVec (pairPayload key) = bytes with
    | some key => .ok (pairPayload key)
    | none => .error (.ofKind .other)

/-- The node 1 connects to the node 2, and each receives the signature of the other. -/
def pairActs : List (PeeringAct UInt8 UInt8) :=
  [.dial 1 1 fun _ ↦ none, .answer 2 2 (fun _ ↦ none) (List.replicate 32 1),
    .finish 0 (List.replicate 32 2 ++ List.replicate 16 0)] ++
  (blobChunks (payloadToVec (pairPayload 1))).map (.deliver 1) ++ [.authenticate 1] ++
  (blobChunks (payloadToVec (pairPayload 2))).map (.deliver 0) ++ [.authenticate 0]

theorem peer_of_reachable_pair :
    ∃ net s s', Machine.runs (next pairNoise pairEd25519 pairJson)
        (Unbroken pairNoise pairEd25519 pairJson fun _ ↦ True) ⟨[], []⟩ pairActs = some net ∧
      net.sessions = [s, s'] ∧ s.phase = .established (pairEd25519.nodeId 2) ∧
      s'.phase = .established (pairEd25519.nodeId 1) ∧ s'.transcript = s.transcript ∧
      s.delivered.length = 2 ∧ s.delivered <+: s'.conn.outbound := by
  have hpair : (Machine.runs (next pairNoise pairEd25519 pairJson)
      (Unbroken pairNoise pairEd25519 pairJson fun _ ↦ True) ⟨[], []⟩ pairActs).any fun net ↦
        net.sessions.map (fun s ↦ (s.identity, s.phase, s.delivered.length)) =
          [(1, .established (pairEd25519.nodeId 2), 2),
            (2, .established (pairEd25519.nodeId 1), 2)] := by decide +kernel
  obtain ⟨net, hnet, hsessions⟩ := (Option.any_eq_true _ _).mp hpair
  have hreach : (machine pairNoise pairEd25519 pairJson fun _ ↦ True).Reachable net :=
    Machine.reachable_runs (.init rfl) hnet
  obtain ⟨s, rest, hs, hfirst, hrest⟩ := List.map_eq_cons_iff.mp (of_decide_eq_true hsessions)
  obtain ⟨s', rest', rfl, hsecond, hnil⟩ := List.map_eq_cons_iff.mp hrest
  obtain rfl := List.map_eq_nil_iff.mp hnil
  obtain ⟨hid, hphase, hlen⟩ := (Prod.mk.inj hfirst).imp_right Prod.mk.inj
  obtain ⟨-, hphase', -⟩ := (Prod.mk.inj hsecond).imp_right Prod.mk.inj
  rcases peer_of_reachable (i := 0) lawful_pairNoise hreach (by rw [hs]; rfl) hphase trivial with
    ⟨-, hself⟩ | ⟨j, x, hj, hne, -, -, htr, hpre, -⟩
  · rw [hid] at hself
    exact absurd hself (by decide)
  · rw [hs] at hj
    match j, hne, hj with
    | 1, _, hj =>
      obtain rfl := Option.some.inj hj
      exact ⟨net, s, s', hnet, hs, hphase, hphase', htr, hlen, hpre⟩

end Pair

end Peering

end Lilsync
