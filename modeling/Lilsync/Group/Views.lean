import Lilsync.Group
import Lilsync.Lib.Machine

/-!
# The views of the ledger

`active_peers` parses the text of an id, `is_active_member` and
`active_peer_ids` compare it.  They agree as long as a text that stands for a
node is the one the program writes for it.
-/

namespace Lilsync

open Std (ExtTreeMap)
open Lilsync.Lib

namespace GroupState

/-- The id of an active entry is written as the program writes it, if it can be
read at all. -/
def CanonicalId (e : MemberEntry) : Prop :=
  e.status = .active → ∀ n ∈ NodeId.fromText e.id, e.id = n.toText

/-- What keeps the views together. -/
structure Tidied (members : Members) : Prop where
  keyed : Keyed members
  canonical : ∀ (k : Str) (e : MemberEntry), members[k]? = some e → CanonicalId e

/-! ## The invariant -/

theorem tidied_empty : Tidied ∅ := by
  refine ⟨keyed_empty, fun k e h ↦ ?_⟩
  simp at h

theorem Tidied.insert {members : Members} (h : Tidied members) {e : MemberEntry}
    (he : CanonicalId e) : Tidied (members.insert e.id e) := by
  refine ⟨h.keyed.insert e, fun k e' hk ↦ ?_⟩
  rw [OrdMap.getElem?_insert_eq] at hk
  split at hk
  · cases hk
    exact he
  · exact h.canonical k e' hk

theorem canonicalId_toText (id : NodeId) (status : MemberStatus) (lamport : UInt64) :
    CanonicalId ⟨id.toText, status, lamport⟩ := by
  intro _ n hn
  rw [NodeId.fromText_toText] at hn
  obtain rfl := Option.some.inj hn
  rfl

theorem tidied_ofList {l : List MemberEntry} (hl : ∀ e ∈ l, CanonicalId e) :
    Tidied (ExtTreeMap.ofList (l.map fun e ↦ (e.id, e))) := by
  rw [ExtTreeMap.ofList_eq_foldl]
  have hempty := tidied_empty
  generalize (∅ : Members) = members at hempty
  induction l generalizing members with
  | nil => exact hempty
  | cons e l ih =>
    rw [List.forall_mem_cons] at hl
    exact ih hl.2 _ (hempty.insert hl.1)

theorem Tidied.foldl_takeOver {members : Members} (h : Tidied members) {l : List MemberEntry}
    (hl : ∀ e ∈ l, CanonicalId e) : Tidied (l.foldl takeOver members) := by
  induction l generalizing members with
  | nil => exact h
  | cons e l ih =>
    rw [List.forall_mem_cons] at hl
    refine ih ?_ hl.2
    rw [takeOver]
    split
    · exact h.insert hl.1
    · exact h

theorem tidied_loadOrInit {localId : NodeId} {file : PeersFile} {saved : IoResult Unit}
    {g : GroupState} (hfile : ∀ e ∈ file.entries, CanonicalId e)
    (h : loadOrInit localId file saved = .ok g) : Tidied g.members := by
  have hstart : ∀ members, Tidied members → ∀ g, saved.map (fun _ ↦ GroupState.mk localId.toText
      (if localId.toText ∈ members then members else members.insert localId.toText
        ⟨localId.toText, .active, nextLamport members⟩)) = .ok g → Tidied g.members := by
    intro members hm g hg
    cases saved with
    | error err => cases hg
    | ok _ =>
      obtain rfl := Except.ok.inj hg
      dsimp only
      split
      · exact hm
      · exact hm.insert (canonicalId_toText localId _ _)
  cases file with
  | missing => exact hstart ∅ tidied_empty g h
  | unreadable err => cases h
  | invalid => cases h
  | loaded members => exact hstart _ (tidied_ofList hfile) g h

theorem Tidied.addActivePeer {g : GroupState} (h : Tidied g.members) (peer : NodeId)
    (saved : IoResult Unit) : Tidied (g.addActivePeer peer saved).2.members := by
  rcases addActivePeer_cases h.keyed peer saved with heq | ⟨lamport, heq⟩ <;> rw [heq]
  · exact h
  · exact h.insert (canonicalId_toText peer .active lamport)

theorem Tidied.removePeer {g : GroupState} (h : Tidied g.members) (target : Str)
    (saved : IoResult Unit) : Tidied (g.removePeer target saved).2.members := by
  rcases removePeer_cases g target saved with heq | ⟨id, lamport, heq⟩ <;> rw [heq]
  · exact h
  · exact h.insert (e := ⟨id, .removed, lamport⟩) (by simp [CanonicalId])

theorem Tidied.mergeMembers {g : GroupState} (h : Tidied g.members) {incoming : List MemberEntry}
    (hin : ∀ e ∈ incoming, CanonicalId e) (saved : IoResult Unit) :
    Tidied (g.mergeMembers incoming saved).2.members := by
  rw [mergeMembers_snd]
  exact h.foldl_takeOver hin

/-! ## Agreement -/

/-- The views agree on every other node, and the local node is in none of them. -/
def ViewsAgree (g : GroupState) : Prop :=
  ∀ self : NodeId, g.localId = self.toText →
    self ∉ g.activePeers ∧ self.toText ∉ g.activePeerIds ∧
    ∀ n, n ≠ self → (n ∈ g.activePeers ↔ g.isActiveMember n) ∧
      (n.toText ∈ g.activePeerIds ↔ g.isActiveMember n)

theorem mem_activeOthers {g : GroupState} {e : MemberEntry} : e ∈ g.activeOthers ↔
    (∃ k : Str, g.members[k]? = some e) ∧ e.id ≠ g.localId ∧ e.status = .active := by
  rw [activeOthers, List.mem_filter, memberList, OrdMap.mem_values_iff, decide_eq_true_iff]

theorem Tidied.mem_activePeerIds_iff {g : GroupState} (h : Tidied g.members) {n : NodeId} :
    n.toText ∈ g.activePeerIds ↔ n.toText ≠ g.localId ∧ g.isActiveMember n := by
  rw [activePeerIds, List.mem_map, isActiveMember, Option.any_eq_true]
  constructor
  · rintro ⟨e, he, hid⟩
    obtain ⟨⟨k, hk⟩, hne, hactive⟩ := mem_activeOthers.mp he
    obtain rfl := h.keyed k e hk
    rw [hid] at hk hne
    exact ⟨hne, e, hk, decide_eq_true hactive⟩
  · rintro ⟨hne, e, hk, hactive⟩
    have hid := h.keyed _ e hk
    exact ⟨e, mem_activeOthers.mpr ⟨⟨_, hk⟩, hid ▸ hne, of_decide_eq_true hactive⟩, hid⟩

/-- Parsing finds the nodes whose texts are listed. -/
theorem Tidied.mem_activePeers_iff {g : GroupState} (h : Tidied g.members) {n : NodeId} :
    n ∈ g.activePeers ↔ n.toText ∈ g.activePeerIds := by
  rw [activePeers, List.mem_filterMap, activePeerIds, List.mem_map]
  constructor
  · rintro ⟨e, he, hn⟩
    obtain ⟨⟨k, hk⟩, -, hactive⟩ := mem_activeOthers.mp he
    exact ⟨e, he, h.canonical k e hk hactive n hn⟩
  · rintro ⟨e, he, hid⟩
    exact ⟨e, he, by rw [hid, NodeId.fromText_toText]⟩

theorem Tidied.viewsAgree {g : GroupState} (h : Tidied g.members) : ViewsAgree g := by
  intro self hself
  have hids : self.toText ∉ g.activePeerIds := fun hmem ↦
    (h.mem_activePeerIds_iff.mp hmem).1 hself.symm
  refine ⟨fun hmem ↦ hids (h.mem_activePeers_iff.mp hmem), hids, fun n hn ↦ ?_⟩
  have hne : n.toText ≠ g.localId := fun heq ↦ hn (NodeId.toText_injective (heq.trans hself))
  have hiff : n.toText ∈ g.activePeerIds ↔ g.isActiveMember n := by
    rw [h.mem_activePeerIds_iff]
    exact and_iff_right hne
  exact ⟨h.mem_activePeers_iff.trans hiff, hiff⟩

/-! ## Runs -/

/-- What is done to a ledger. -/
inductive Act where
  | add (peer : NodeId)
  | remove (target : Str)
  | merge (incoming : List MemberEntry)

/-- The ledger after an action, whether it could be saved or not. -/
def act (g : GroupState) (saved : IoResult Unit) : Act → GroupState
  | .add peer => (g.addActivePeer peer saved).2
  | .remove target => (g.removePeer target saved).2
  | .merge incoming => (g.mergeMembers incoming saved).2

/-- The entries that come from outside. -/
def Act.incoming : Act → List MemberEntry
  | .merge incoming => incoming
  | _ => []

/-- The life of a ledger, when what comes from the file and from peers satisfies `P`. -/
def machine (P : MemberEntry → Prop) : Machine GroupState where
  init g := ∃ localId file saved, (∀ e ∈ file.entries, P e) ∧ loadOrInit localId file saved = .ok g
  step g g' := ∃ a saved, (∀ e ∈ a.incoming, P e) ∧ g' = g.act saved a

/-- The views agree in every reachable ledger, as long as every active entry that
is loaded or merged and can be read has the id the program writes. -/
theorem viewsAgree_of_canonicalId {g : GroupState} (h : (machine CanonicalId).Reachable g) :
    ViewsAgree g := by
  refine (h.invariant (I := fun g ↦ Tidied g.members) ?_ ?_).viewsAgree
  · rintro g ⟨localId, file, saved, hfile, hload⟩
    exact tidied_loadOrInit hfile hload
  · rintro g g' - hg ⟨a, saved, hin, rfl⟩
    cases a with
    | add peer => exact hg.addActivePeer peer saved
    | remove target => exact hg.removePeer target saved
    | merge incoming => exact hg.mergeMembers hin saved

/-- A node id for examples. -/
def exampleId (b : UInt8) : NodeId := ⟨Vector.replicate 32 b⟩

/-- A ledger that learns of a node and removes it again. -/
theorem viewsAgree_after_remove :
    ∃ g₀, loadOrInit (exampleId 1) .missing (.ok ()) = .ok g₀ ∧
      ViewsAgree ((g₀.act (.ok ()) (.merge [⟨(exampleId 171).toText, .active, 2⟩])).act (.ok ())
        (.remove (exampleId 171).toText)) := by
  refine ⟨_, rfl, viewsAgree_of_canonicalId (.step (.step (.init ⟨exampleId 1, .missing, .ok (), ?_,
    rfl⟩) ⟨_, _, ?_, rfl⟩) ⟨_, _, ?_, rfl⟩)⟩
  · exact fun e he ↦ absurd he (List.not_mem_nil)
  · intro e he
    rw [List.mem_singleton.mp he]
    exact canonicalId_toText _ _ _
  · exact fun e he ↦ absurd he (List.not_mem_nil)

/-- The counterexample: a peer sends the id of a member in capitals. -/
theorem not_forall_viewsAgree :
    ¬ ∀ g, (machine fun _ ↦ True).Reachable g → ViewsAgree g := by
  intro h
  obtain ⟨g₀, hg₀⟩ : ∃ g₀, loadOrInit (exampleId 1) .missing (.ok ()) = .ok g₀ := ⟨_, rfl⟩
  have hreach : (machine fun _ ↦ True).Reachable (g₀.act (.ok ())
      (.merge [⟨List.replicate 64 65, .active, 2⟩])) :=
    .step (.init ⟨_, _, _, fun _ _ ↦ trivial, hg₀⟩) ⟨_, _, fun _ _ ↦ trivial, rfl⟩
  cases hg₀
  have hviews := (h _ hreach (exampleId 1) rfl).2.2 (exampleId 170) (by decide)
  exact absurd (hviews.1.mp (by decide +kernel)) (by decide +kernel)

end GroupState

end Lilsync
