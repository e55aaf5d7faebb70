import Lilsync.Identity
import Lilsync.Lib.OrdMap

/-!
# The member ledger

`group.rs`: `GroupState`, the members a node knows, active or removed, each with
a clock.  A method that changes the ledger saves it; `saved` is what
`save_peers_file` returned when it was called.  A failure leaves the ledger in
memory as the method has made it.

The clocks are `u64` and wrap around as they do in a release build.
-/

namespace Lilsync

open Std (ExtTreeMap)
open Lilsync.Lib

inductive MemberStatus where
  | active
  | removed
deriving DecidableEq, Repr

structure MemberEntry where
  id : Str
  status : MemberStatus
  lamport : UInt64
deriving DecidableEq, Repr

/-- Members by the text of their ids. -/
abbrev Members := BTreeMap Str MemberEntry

/-- `GroupState`. -/
structure GroupState where
  localId : Str
  members : Members

/-- What is at the path of `peers.json`. -/
inductive PeersFile where
  | missing
  | unreadable (err : IoError)
  | invalid
  | loaded (members : List MemberEntry)

/-- The entries in a file. -/
def PeersFile.entries : PeersFile → List MemberEntry
  | .loaded members => members
  | _ => []

/-- `MemberMerge`. -/
structure MemberMerge where
  changed : Bool
  removedSelf : Bool
  activePeers : List NodeId

/-- `next_lamport`. -/
def nextLamport (members : Members) : UInt64 :=
  (OrdMap.values members).foldl (fun m e ↦ max m e.lamport) 0 + 1

namespace GroupState

/-! ## Views -/

/-- `members`. -/
def memberList (g : GroupState) : List MemberEntry := OrdMap.values g.members

/-- The entries of the other members that are active. -/
def activeOthers (g : GroupState) : List MemberEntry :=
  g.memberList.filter fun e ↦ e.id ≠ g.localId ∧ e.status = .active

/-- `active_peers`. -/
def activePeers (g : GroupState) : List NodeId := g.activeOthers.filterMap fun e ↦ NodeId.fromText e.id

/-- `active_peer_ids`. -/
def activePeerIds (g : GroupState) : List Str := g.activeOthers.map MemberEntry.id

/-- `is_active_member`. -/
def isActiveMember (g : GroupState) (peer : NodeId) : Bool :=
  g.members[peer.toText]?.any fun e ↦ e.status = .active

/-! ## Changes -/

/-- `load_or_init`. -/
def loadOrInit (localId : NodeId) (file : PeersFile) (saved : IoResult Unit) :
    IoResult GroupState :=
  let start (members : Members) : IoResult GroupState :=
    let id := localId.toText
    let members :=
      if id ∈ members then members
      else members.insert id ⟨id, .active, nextLamport members⟩
    saved.map fun _ ↦ ⟨id, members⟩
  match file with
  | .missing => start ∅
  | .unreadable err => .error err
  | .invalid => .error (.ofKind .other)
  | .loaded members => start (ExtTreeMap.ofList (members.map fun e ↦ (e.id, e)))

/-- `add_active_peer`. -/
def addActivePeer (g : GroupState) (peer : NodeId) (saved : IoResult Unit) :
    IoResult Bool × GroupState :=
  let id := peer.toText
  let lamport := nextLamport g.members
  match g.members[id]? with
  | some e =>
    if e.status = .active then (.ok false, g)
    else (saved.map fun _ ↦ true,
      { g with members := g.members.insert id { e with status := .active, lamport } })
  | none =>
    (saved.map fun _ ↦ true, { g with members := g.members.insert id ⟨id, .active, lamport⟩ })

/-- `remove_peer`. -/
def removePeer (g : GroupState) (target : Str) (saved : IoResult Unit) :
    IoResult (Option Str) × GroupState :=
  match g.memberList.find? fun e ↦ e.id = target with
  | none => (.ok none, g)
  | some e =>
    if e.id = g.localId then (.error (.ofKind .other), g)
    else
      let lamport := nextLamport g.members
      (saved.map fun _ ↦ some e.id,
        { g with members := g.members.insert e.id { e with status := .removed, lamport } })

/-- `merge_members` takes the entry over. -/
def applies (members : Members) (e : MemberEntry) : Bool :=
  (NodeId.fromText e.id).isSome && members[e.id]?.all fun own ↦ own.lamport < e.lamport

/-- The body of the loop of `merge_members`: the members, whether any changed, and
whether the local node was removed. -/
def mergeMember (localId : Str) (st : Members × Bool × Bool) (e : MemberEntry) :
    Members × Bool × Bool :=
  if applies st.1 e then
    (st.1.insert e.id e, true, st.2.2 || (e.id == localId && e.status == .removed))
  else st

/-- `merge_members`. -/
def mergeMembers (g : GroupState) (incoming : List MemberEntry) (saved : IoResult Unit) :
    IoResult MemberMerge × GroupState :=
  let (members, changed, removedSelf) :=
    incoming.foldl (mergeMember g.localId) (g.members, false, false)
  let g := { g with members }
  ((if changed then saved else .ok ()).map fun _ ↦ ⟨changed, removedSelf, g.activePeers⟩, g)

/-! ## What changes -/

/-- Members are filed under the text of their ids. -/
def Keyed (members : Members) : Prop :=
  ∀ (k : Str) (e : MemberEntry), members[k]? = some e → e.id = k

theorem keyed_empty : Keyed ∅ := by
  intro k e h
  simp at h

theorem Keyed.insert {members : Members} (h : Keyed members) (e : MemberEntry) :
    Keyed (members.insert e.id e) := by
  intro k e' hk
  rw [OrdMap.getElem?_insert_eq] at hk
  split at hk
  · next heq =>
    cases hk
    exact heq
  · exact h k e' hk

/-- Adding a peer leaves the members alone or puts an active entry under its text. -/
theorem addActivePeer_cases {g : GroupState} (h : Keyed g.members) (peer : NodeId)
    (saved : IoResult Unit) : (g.addActivePeer peer saved).2 = g ∨
      ∃ lamport, (g.addActivePeer peer saved).2 =
        { g with members := g.members.insert peer.toText ⟨peer.toText, .active, lamport⟩ } := by
  rw [addActivePeer]
  split
  · next e he =>
    split
    · exact .inl rfl
    · refine .inr ⟨nextLamport g.members, ?_⟩
      rw [← h _ _ he]
  · exact .inr ⟨_, rfl⟩

/-- Removing a peer leaves the members alone or marks one as removed. -/
theorem removePeer_cases (g : GroupState) (target : Str) (saved : IoResult Unit) :
    (g.removePeer target saved).2 = g ∨
      ∃ id lamport, (g.removePeer target saved).2 =
        { g with members := g.members.insert id ⟨id, .removed, lamport⟩ } := by
  rw [removePeer]
  split
  · exact .inl rfl
  · split
    · exact .inl rfl
    · exact .inr ⟨_, _, rfl⟩

/-- What merging does to the members, entry by entry. -/
def takeOver (members : Members) (e : MemberEntry) : Members :=
  if applies members e then members.insert e.id e else members

theorem fst_foldl_mergeMember (localId : Str) (st : Members × Bool × Bool)
    (incoming : List MemberEntry) :
    (incoming.foldl (mergeMember localId) st).1 = incoming.foldl takeOver st.1 := by
  induction incoming generalizing st with
  | nil => rfl
  | cons e incoming ih =>
    rw [List.foldl_cons, List.foldl_cons, ih, mergeMember, takeOver]
    split <;> rfl

theorem mergeMembers_snd (g : GroupState) (incoming : List MemberEntry) (saved : IoResult Unit) :
    (g.mergeMembers incoming saved).2 = { g with members := incoming.foldl takeOver g.members } := by
  rw [← fst_foldl_mergeMember g.localId (g.members, false, false)]
  rfl

theorem foldl_mergeMember_of_not_applies {localId : Str} {incoming : List MemberEntry}
    {st : Members × Bool × Bool} (h : ¬ incoming.any (applies st.1)) :
    incoming.foldl (mergeMember localId) st = st := by
  induction incoming with
  | nil => rfl
  | cons e incoming ih =>
    rw [List.any_cons, Bool.or_eq_true, not_or] at h
    rw [List.foldl_cons, mergeMember, if_neg h.1]
    exact ih h.2

/-- The loop notes a change when it takes an entry over, and does not forget it. -/
theorem changed_foldl_mergeMember {localId : Str} {incoming : List MemberEntry}
    {st : Members × Bool × Bool} (h : st.2.1 ∨ incoming.any (applies st.1)) :
    (incoming.foldl (mergeMember localId) st).2.1 := by
  induction incoming generalizing st with
  | nil => exact h.resolve_right Bool.false_ne_true
  | cons e incoming ih =>
    refine ih ?_
    rw [List.any_cons, Bool.or_eq_true] at h
    rw [mergeMember]
    split
    · exact .inl rfl
    · next happ => exact h.imp_right fun h ↦ h.resolve_left happ

/-- Where no entry is taken over, nothing is saved. -/
theorem mergeMembers_of_not_applies {g : GroupState} {incoming : List MemberEntry}
    (h : ¬ incoming.any (applies g.members)) (saved : IoResult Unit) :
    g.mergeMembers incoming saved = (.ok ⟨false, false, g.activePeers⟩, g) := by
  rw [mergeMembers, foldl_mergeMember_of_not_applies h]
  rfl

/-- Where an entry is taken over, the outcome is that of saving. -/
theorem mergeMembers_of_applies {g : GroupState} {incoming : List MemberEntry}
    (h : incoming.any (applies g.members)) (saved : IoResult Unit) :
    ∃ merge : MemberMerge, merge.changed = true ∧
      (g.mergeMembers incoming saved).1 = saved.map fun _ ↦ merge := by
  have hchanged := @changed_foldl_mergeMember g.localId incoming (g.members, false, false) (.inr h)
  rw [mergeMembers]
  generalize incoming.foldl (mergeMember g.localId) (g.members, false, false) = st at hchanged
  refine ⟨⟨st.2.1, st.2.2, activePeers { g with members := st.1 }⟩, hchanged, ?_⟩
  dsimp only
  rw [if_pos hchanged]

theorem Keyed.foldl_takeOver {members : Members} (h : Keyed members) (l : List MemberEntry) :
    Keyed (l.foldl takeOver members) := by
  induction l generalizing members with
  | nil => exact h
  | cons e l ih =>
    refine ih ?_
    rw [takeOver]
    split
    · exact h.insert e
    · exact h

end GroupState

end Lilsync
