import Lilsync.Group
import Lilsync.Lib.Gossip
import Lilsync.Lib.Machine

/-!
# Ledgers that merge each other

Merging a whole ledger takes over, for each id, what has the greater clock.  So
a ledger is a register for each id, and ledgers that have all merged each other
agree exactly when nobody tied (`converged_exchange_iff`).
-/

namespace Lilsync

open Std (ExtTreeMap)
open Lilsync.Lib Lilsync.Lib.Gossip

/-- The clock of an entry as a number. -/
def MemberEntry.clock (e : MemberEntry) : Nat := e.lamport.toNat

namespace GroupState

variable {members members' : Members} {id : Str}

/-! ## One id at a time -/

theorem getElem?_takeOver (members : Members) (e : MemberEntry) (id : Str) :
    (takeOver members e)[id]? =
      if e.id = id ∧ NodeId.fromText id ≠ none then newer MemberEntry.clock members[id]? (some e)
      else members[id]? := by
  rw [takeOver, applies]
  by_cases hid : e.id = id
  · subst hid
    cases hparse : NodeId.fromText e.id with
    | none => simp
    | some n =>
      cases hm : members[e.id]? with
      | none => simp [newer]
      | some own =>
        by_cases hlt : own.lamport < e.lamport
        · simp [newer, MemberEntry.clock, ← UInt64.lt_iff_toNat_lt, hlt]
        · simp [newer, MemberEntry.clock, ← UInt64.lt_iff_toNat_lt, hlt, hm]
  · rw [if_neg (not_and_of_not_left _ hid)]
    split
    · rw [OrdMap.getElem?_insert_eq, if_neg hid]
    · rfl

/-- Merging entries with distinct ids. -/
theorem getElem?_foldl_takeOver {l : List MemberEntry} (hl : (l.map MemberEntry.id).Nodup)
    (members : Members) (id : Str) :
    (l.foldl takeOver members)[id]? =
      if NodeId.fromText id ≠ none then
        newer MemberEntry.clock members[id]? (l.find? fun e ↦ e.id = id)
      else members[id]? := by
  induction l generalizing members with
  | nil =>
    rw [List.find?_nil, List.foldl_nil]
    split
    · cases members[id]? <;> rfl
    · rfl
  | cons e l ih =>
    rw [List.map_cons, List.nodup_cons] at hl
    rw [List.foldl_cons, ih hl.2, getElem?_takeOver, List.find?_cons]
    by_cases hparse : NodeId.fromText id = none
    · simp [hparse]
    · by_cases hid : e.id = id
      · have hnone : l.find? (fun e ↦ e.id = id) = none := by
          rw [List.find?_eq_none]
          intro e' he' heq
          exact hl.1 (List.mem_map.mpr ⟨e', he', (of_decide_eq_true heq).trans hid.symm⟩)
        simp only [hparse, not_false_eq_true, hid, and_self, ↓reduceIte, ne_eq, hnone, decide_true]
        cases newer MemberEntry.clock members[id]? (some e) <;> rfl
      · simp [hparse, hid]

theorem Keyed.nodup_map_id (h : Keyed members) : ((OrdMap.values members).map MemberEntry.id).Nodup := by
  have hkeys : (OrdMap.values members).map MemberEntry.id = members.keys := by
    rw [OrdMap.values, List.map_map, ← ExtTreeMap.map_fst_toList_eq_keys]
    refine List.map_congr_left fun kv hkv ↦ ?_
    exact h kv.1 kv.2 (ExtTreeMap.mem_toList_iff_getElem?_eq_some.mp hkv)
  rw [hkeys]
  exact ExtTreeMap.nodup_keys

theorem Keyed.find?_values (h : Keyed members) (id : Str) :
    (OrdMap.values members).find? (fun e ↦ e.id = id) = members[id]? := by
  cases hm : members[id]? with
  | none =>
    rw [List.find?_eq_none]
    intro e he heq
    obtain ⟨k, hk⟩ := OrdMap.mem_values_iff.mp he
    rw [← of_decide_eq_true heq, h k e hk, hk] at hm
    cases hm
  | some e =>
    have hmem : e ∈ OrdMap.values members := OrdMap.mem_values_iff.mpr ⟨id, hm⟩
    obtain ⟨e', he'⟩ : ∃ e', (OrdMap.values members).find? (fun e ↦ e.id = id) = some e' :=
      Option.isSome_iff_exists.mp (List.find?_isSome.mpr ⟨e, hmem, decide_eq_true (h id e hm)⟩)
    obtain ⟨k, hk⟩ := OrdMap.mem_values_iff.mp (List.mem_of_find?_eq_some he')
    have hid : e'.id = id := by simpa using List.find?_some he'
    rw [← h k e' hk, hid, hm] at hk
    rw [he', hk]

/-- Merging a ledger takes over, id by id, what is newer. -/
theorem getElem?_mergeMembers (g g' : GroupState) (h : Keyed g'.members) (saved : IoResult Unit)
    (id : Str) : (g.mergeMembers g'.memberList saved).2.members[id]? =
      if NodeId.fromText id ≠ none then
        newer MemberEntry.clock g.members[id]? g'.members[id]?
      else g.members[id]? := by
  rw [mergeMembers_snd, memberList, getElem?_foldl_takeOver h.nodup_map_id, h.find?_values]

end GroupState

/-! ## Networks -/

open GroupState

/-- The ledgers of some nodes, and those they have sent to each other. -/
structure Network (ι : Type) where
  ledgers : ι → GroupState
  sent : List (List MemberEntry)

/-- What can happen in a network. -/
inductive NetworkAct (ι : Type) where
  | add (i : ι) (peer : NodeId)
  | remove (i : ι) (target : Str)
  /-- A node sends its ledger. -/
  | send (i : ι)
  /-- A ledger that was sent arrives, now or again. -/
  | merge (i : ι) (ledger : Nat)

/-- A node merges the ledger another one has at that moment. -/
structure Delivery (ι : Type) where
  receiver : ι
  sender : ι
  saved : IoResult Unit

namespace Network

variable {ι : Type} [DecidableEq ι]

def setLedger (n : Network ι) (i : ι) (g : GroupState) : Network ι :=
  { n with ledgers := Function.update n.ledgers i g }

/-- The network after an action; `saved` is how a save goes, if there is one. -/
def act (n : Network ι) (saved : IoResult Unit) : NetworkAct ι → Network ι
  | .add i peer => n.setLedger i ((n.ledgers i).addActivePeer peer saved).2
  | .remove i target => n.setLedger i ((n.ledgers i).removePeer target saved).2
  | .send i => { n with sent := n.sent ++ [(n.ledgers i).memberList] }
  | .merge i k => n.setLedger i ((n.ledgers i).mergeMembers (n.sent.getD k []) saved).2

/-- Nodes that start from a common ledger. -/
def machine (ι : Type) [DecidableEq ι] : Machine (Network ι) where
  init n := ∃ common, Keyed common ∧ (∀ i, (n.ledgers i).members = common) ∧ n.sent = []
  step n n' := ∃ a saved, n' = n.act saved a

def deliver (n : Network ι) (d : Delivery ι) : Network ι :=
  n.setLedger d.receiver
    ((n.ledgers d.receiver).mergeMembers (n.ledgers d.sender).memberList d.saved).2

/-- Ledgers are exchanged, one delivery after the other. -/
def exchange (n : Network ι) (ds : List (Delivery ι)) : Network ι := ds.foldl deliver n

omit [DecidableEq ι] in
/-- All nodes hold the same status and clock for every id. -/
def Converged (n : Network ι) : Prop :=
  ∀ i j (id : Str), (n.ledgers i).members[id]?.map (fun e ↦ (e.status, e.lamport)) =
    (n.ledgers j).members[id]?.map fun e ↦ (e.status, e.lamport)

omit [DecidableEq ι] in
/-- Nodes that hold the greatest clock there is for an id hold it with the same
status; for an id that merging ignores, all nodes hold the same. -/
structure NoTie (n : Network ι) : Prop where
  status_eq : ∀ (id : Str) i j e e', NodeId.fromText id ≠ none →
    (n.ledgers i).members[id]? = some e → (n.ledgers j).members[id]? = some e' →
    e.lamport = e'.lamport →
    (∀ k e'', (n.ledgers k).members[id]? = some e'' → e''.lamport ≤ e.lamport) →
    e.status = e'.status
  ignored : ∀ (id : Str) i j, NodeId.fromText id = none →
    (n.ledgers i).members[id]?.map (fun e ↦ (e.status, e.lamport)) =
      (n.ledgers j).members[id]?.map fun e ↦ (e.status, e.lamport)

/-! ## Registers -/

/-- What the nodes hold for an id. -/
def register (n : Network ι) (id : Str) (i : ι) : Option MemberEntry := (n.ledgers i).members[id]?

/-- Every ledger is filed by id. -/
def AllKeyed (n : Network ι) : Prop := ∀ i, Keyed (n.ledgers i).members

variable {n n' : Network ι}

theorem AllKeyed.setLedger (h : AllKeyed n) {i : ι} {g : GroupState} (hg : Keyed g.members) :
    AllKeyed (n.setLedger i g) := by
  intro k
  rw [Network.setLedger]
  dsimp only
  rw [Function.update_apply]
  split
  · exact hg
  · exact h k

theorem allKeyed_of_reachable (h : (machine ι).Reachable n) : AllKeyed n := by
  refine h.invariant ?_ ?_
  · rintro n ⟨common, hkeyed, hn, -⟩ i
    rw [hn i]
    exact hkeyed
  · rintro n n' - hn ⟨a, saved, rfl⟩
    cases a with
    | add i peer =>
      refine hn.setLedger ?_
      rcases addActivePeer_cases (hn i) peer saved with heq | ⟨lamport, heq⟩ <;> rw [heq]
      · exact hn i
      · exact (hn i).insert ⟨peer.toText, .active, lamport⟩
    | remove i target =>
      refine hn.setLedger ?_
      rcases removePeer_cases (n.ledgers i) target saved with heq | ⟨id, lamport, heq⟩ <;> rw [heq]
      · exact hn i
      · exact (hn i).insert ⟨id, .removed, lamport⟩
    | send i => exact hn
    | merge i k =>
      refine hn.setLedger ?_
      rw [mergeMembers_snd]
      exact (hn i).foldl_takeOver _

theorem AllKeyed.deliver (h : AllKeyed n) (d : Delivery ι) : AllKeyed (n.deliver d) := by
  refine h.setLedger ?_
  rw [mergeMembers_snd]
  exact (h d.receiver).foldl_takeOver _

/-- A delivery, seen from one id. -/
theorem register_deliver (h : AllKeyed n) (d : Delivery ι) (id : Str) :
    (n.deliver d).register id =
      if NodeId.fromText id ≠ none then
        hear MemberEntry.clock (n.register id) (d.receiver, d.sender)
      else n.register id := by
  funext k
  rw [register, Network.deliver, Network.setLedger]
  dsimp only
  rw [Function.update_apply]
  by_cases hk : k = d.receiver
  · subst hk
    rw [if_pos rfl, getElem?_mergeMembers _ _ (h d.sender)]
    split
    · rw [hear, Function.update_self]
      rfl
    · rfl
  · rw [if_neg hk]
    split
    · rw [hear, Function.update_of_ne hk]
      rfl
    · rfl

/-- An exchange, seen from one id. -/
theorem register_exchange (h : AllKeyed n) (ds : List (Delivery ι)) (id : Str) :
    (n.exchange ds).register id =
      if NodeId.fromText id ≠ none then
        hearAll MemberEntry.clock (n.register id) (ds.map fun d ↦ (d.receiver, d.sender))
      else n.register id := by
  induction ds generalizing n with
  | nil => simp [exchange, hearAll]
  | cons d ds ih =>
    rw [exchange, List.foldl_cons, ← exchange, ih (h.deliver d), register_deliver h]
    split <;> rfl

omit [DecidableEq ι] in
/-- With its id, status and clock make an entry. -/
theorem AllKeyed.register_eq_iff (h : AllKeyed n) {id : Str} {i j : ι} :
    (n.register id i).map (fun e ↦ (e.status, e.lamport)) =
      (n.register id j).map (fun e ↦ (e.status, e.lamport)) ↔ n.register id i = n.register id j := by
  refine ⟨fun heq ↦ ?_, congrArg _⟩
  cases hi : n.register id i with
  | none =>
    rw [hi, Option.map_none, eq_comm, Option.map_eq_none_iff] at heq
    exact heq.symm
  | some e =>
    rw [hi, Option.map_some, eq_comm, Option.map_eq_some_iff] at heq
    obtain ⟨e', hj, heq⟩ := heq
    rw [hj]
    obtain ⟨hstatus, hlamport⟩ := Prod.mk.inj heq
    have hid : e.id = e'.id := (h i id e hi).trans (h j id e' hj).symm
    cases e
    cases e'
    simp_all

omit [DecidableEq ι] in
/-- No tie means that each register has one value of greatest rank. -/
theorem AllKeyed.noTie_iff (h : AllKeyed n) : n.NoTie ↔ ∀ id : Str,
    if NodeId.fromText id ≠ none then UniqueTop MemberEntry.clock (n.register id)
    else ∀ i j, n.register id i = n.register id j := by
  constructor
  · intro hn id
    split
    · next hparse =>
      intro i j e e' hi hj hclock htop
      have hlamport : e.lamport = e'.lamport := UInt64.toNat_inj.mp hclock
      have hstatus := hn.status_eq id i j e e' hparse hi hj hlamport fun k e'' hk ↦
        UInt64.le_iff_toNat_le.mpr (htop k e'' hk)
      have hid : e.id = e'.id := (h i id e hi).trans (h j id e' hj).symm
      cases e
      cases e'
      simp_all
    · next hparse =>
      exact fun i j ↦ h.register_eq_iff.mp (hn.ignored id i j (not_not.mp hparse))
  · intro hn
    refine ⟨fun id i j e e' hparse hi hj hlamport htop ↦ ?_, fun id i j hparse ↦ ?_⟩
    · have huniq := hn id
      rw [if_pos hparse] at huniq
      exact congrArg _ (huniq i j e e' hi hj (congrArg UInt64.toNat hlamport) fun k e'' hk ↦
        UInt64.le_iff_toNat_le.mp (htop k e'' hk))
    · have hsame := hn id
      rw [if_neg (not_not.mpr hparse)] at hsame
      exact h.register_eq_iff.mpr (hsame i j)

theorem AllKeyed.exchange (h : AllKeyed n) (ds : List (Delivery ι)) : AllKeyed (n.exchange ds) := by
  induction ds generalizing n with
  | nil => exact h
  | cons d ds ih => exact ih (h.deliver d)

/-- Once every node has merged every other node's ledger, all ledgers agree
exactly when there was no tie. -/
theorem converged_exchange_iff (h : (machine ι).Reachable n) {ds : List (Delivery ι)}
    (hds : ∀ i j, i ≠ j → ∃ d ∈ ds, d.receiver = i ∧ d.sender = j) :
    (n.exchange ds).Converged ↔ n.NoTie := by
  have hkeyed := allKeyed_of_reachable h
  have hheard : ∀ i j, i ≠ j → (i, j) ∈ ds.map fun d ↦ (d.receiver, d.sender) := by
    intro i j hij
    obtain ⟨d, hd, rfl, rfl⟩ := hds i j hij
    exact List.mem_map_of_mem hd
  have hconverged : (n.exchange ds).Converged ↔
      ∀ id i j, (n.exchange ds).register id i = (n.exchange ds).register id j :=
    ⟨fun hc id i j ↦ (hkeyed.exchange ds).register_eq_iff.mp (hc i j id),
      fun hc i j id ↦ (hkeyed.exchange ds).register_eq_iff.mpr (hc id i j)⟩
  rw [hconverged, hkeyed.noTie_iff]
  refine forall_congr' fun id ↦ ?_
  rw [register_exchange hkeyed]
  split
  · exact agree_hearAll_iff MemberEntry.clock hheard
  · exact Iff.rfl

theorem reachable_acts (h : (machine ι).Reachable n) (acts : List (NetworkAct ι)) :
    (machine ι).Reachable (acts.foldl (fun n a ↦ n.act (.ok ()) a) n) := by
  induction acts generalizing n with
  | nil => exact h
  | cons a acts ih => exact ih (.step h ⟨a, .ok (), rfl⟩)

/-- Two nodes that know two members. -/
def twoNodes : Network Bool where
  ledgers i := ⟨(nodeId (if i then 1 else 0)).toText,
    ((∅ : Members).insert (nodeId 2).toText ⟨(nodeId 2).toText, .active, 1⟩).insert (nodeId 3).toText
      ⟨(nodeId 3).toText, .active, 1⟩⟩
  sent := []
where
  nodeId (b : UInt8) : NodeId := ⟨Vector.replicate 32 b⟩

theorem twoNodes_reachable : (machine Bool).Reachable twoNodes := by
  refine .init ⟨_, ?_, fun _ ↦ rfl, rfl⟩
  exact (keyed_empty.insert ⟨_, .active, 1⟩).insert ⟨_, .active, 1⟩

/-- The member `2` is removed by one node. -/
def afterRemoval : Network Bool :=
  twoNodes.act (.ok ()) (.remove false (twoNodes.nodeId 2).toText)

/-- The member `2` is removed by one node, and removed and added again by the other. -/
def afterQuarrel : Network Bool :=
  [.remove false (twoNodes.nodeId 3).toText, .remove false (twoNodes.nodeId 2).toText,
    .remove true (twoNodes.nodeId 2).toText, .add true (twoNodes.nodeId 2)].foldl
    (fun n a ↦ n.act (.ok ()) a) twoNodes

/-- Both nodes merge what the other one has. -/
def bothWays : List (Delivery Bool) := [⟨false, true, .ok ()⟩, ⟨true, false, .ok ()⟩]

theorem mem_bothWays (i j : Bool) (h : i ≠ j) :
    ∃ d ∈ bothWays, d.receiver = i ∧ d.sender = j := by
  cases i <;> cases j
  · exact absurd rfl h
  · exact ⟨_, List.mem_cons_self, rfl, rfl⟩
  · exact ⟨_, List.mem_cons_of_mem _ List.mem_cons_self, rfl, rfl⟩
  · exact absurd rfl h

theorem converged_exchange_afterRemoval :
    (afterRemoval.exchange bothWays).Converged ↔ afterRemoval.NoTie :=
  converged_exchange_iff (.step twoNodes_reachable ⟨_, _, rfl⟩) mem_bothWays

/-- The counterexample: both nodes end their quarrel with the same clock. -/
theorem not_forall_converged :
    ¬ ∀ (n : Network Bool) (ds : List (Delivery Bool)), (machine Bool).Reachable n →
      (∀ i j, i ≠ j → ∃ d ∈ ds, d.receiver = i ∧ d.sender = j) → (n.exchange ds).Converged := by
  intro h
  have hreach : (machine Bool).Reachable afterQuarrel := reachable_acts twoNodes_reachable _
  have hconv := h afterQuarrel bothWays hreach mem_bothWays false true (twoNodes.nodeId 2).toText
  exact absurd hconv (by decide +kernel)

end Network

end Lilsync
