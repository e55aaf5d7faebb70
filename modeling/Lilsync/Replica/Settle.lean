import Lilsync.Lib.Machine
import Lilsync.Replica.Pull

/-!
# Any number of idle nodes converge

Nodes take over entries of one another, in any order.  What a node has once held may
come to another one late, out of order and more than once.  An entry that comes in
may bury live ones, under fresh tombstones that are then newer than what the other
nodes hold.  But each node buries a live entry at most once, and while nothing is
buried every step brings a node closer to what is around.  So this does not go on for
ever, and where it ends all indexes are equal.
-/

namespace Lilsync

open Std (ExtTreeMap)
open Lilsync.Lib

namespace Replica

variable {r r' : Replica} {remote : Entry}

/-- What is accepted is newer. -/
theorem isNewer_of_shouldAcceptRemote (h : r.shouldAcceptRemote remote) : r.isNewer remote := by
  rw [shouldAcceptRemote] at h
  split at h
  · cases h
  · split at h
    · cases h
    · rw [isNewer]
      cases hx : r.entries[remote.path]? with
      | none => rfl
      | some x => rwa [hx] at h

/-- What is newer is accepted if its path is valid and no watermark covers it. -/
theorem shouldAcceptRemote_of_isNewer (hpath : ValidRemotePath remote.path)
    (hunc : remote.kind = .tombstone → r.isVersionGced remote.version = false)
    (h : r.isNewer remote) : r.shouldAcceptRemote remote := by
  rw [shouldAcceptRemote, if_neg (not_not.mpr hpath), if_neg]
  · rw [isNewer] at h
    cases hx : r.entries[remote.path]? with
    | none => rfl
    | some x => rwa [hx] at h
  · intro hcov
    obtain ⟨ht, hg⟩ := Bool.and_eq_true_iff.mp hcov
    rw [hunc (by simpa using ht)] at hg
    cases hg

/-- What is newer later was newer before. -/
theorem isNewer_of_grows (h : Grows r r') (hnew : r'.isNewer remote) : r.isNewer remote := by
  rw [isNewer]
  cases hx : r.entries[remote.path]? with
  | none => rfl
  | some x =>
    obtain ⟨y, hy, hxy⟩ := h _ x hx
    exact decide_eq_true (hxy.trans_lt (lt_of_isNewer hnew hy))

/-- An entry that was recorded is not newer any more. -/
theorem not_isNewer_recordRemote (r : Replica) (remote : Entry) :
    ¬ (recordRemote r remote).1.isNewer remote := by
  intro hnew
  rcases recordRemote_cases r remote remote.path with heq | ⟨hne, -⟩
  · exact lt_irrefl _ (lt_of_isNewer hnew (heq.trans ((getElem?_receive _).trans (if_pos rfl))))
  · exact hne rfl

/-! ## Nodes and what is around -/

/-- Nodes, and all entries that some node has held. -/
structure Mesh (ι : Type) where
  nodes : ι → Replica
  sent : Finset Entry

namespace Mesh

variable {ι : Type} {m m' : Mesh ι} {i j : ι}

/-- Idle nodes: of different origins, with equal watermarks that cover no tombstone
around, and with clocks that have seen all versions of their own origin.  At a path a
version determines the entry. -/
structure Idle (m : Mesh ι) : Prop where
  origin_injective : Function.Injective fun i ↦ (m.nodes i).origin
  gcWatermark_eq : ∀ i j, (m.nodes i).gcWatermark = (m.nodes j).gcWatermark
  sound : ∀ i, (m.nodes i).Sound
  atOwnPaths : ∀ i, AtOwnPaths (m.nodes i).entries
  mem_sent : ∀ i (k : Str) (e : Entry), (m.nodes i).entries[k]? = some e → e ∈ m.sent
  valid : ∀ e ∈ m.sent, ValidRemotePath e.path
  uncovered : ∀ i, ∀ e ∈ m.sent, e.kind = .tombstone →
    (m.nodes i).isVersionGced e.version = false
  agree : ∀ x ∈ m.sent, ∀ y ∈ m.sent, x.path = y.path → x.version = y.version → x = y
  hasSeen : ∀ i, ∀ e ∈ m.sent, e.version.origin = (m.nodes i).origin →
    e.version.lamport ≤ (m.nodes i).lamport

/-- The live entries around. -/
def live (m : Mesh ι) : Finset Entry := m.sent.filter fun e ↦ e.kind ≠ .tombstone

variable [DecidableEq ι]

/-- The nodes after node `i` has recorded the entry. -/
def takeOver (m : Mesh ι) (i : ι) (remote : Entry) : Mesh ι :=
  let r := (recordRemote (m.nodes i) remote).1
  ⟨Function.update m.nodes i r, m.sent ∪ (OrdMap.values r.entries).toFinset⟩

theorem takeOver_self (m : Mesh ι) (i : ι) (remote : Entry) :
    (m.takeOver i remote).nodes i = (recordRemote (m.nodes i) remote).1 :=
  Function.update_self _ _ _

theorem takeOver_of_ne (hji : j ≠ i) : (m.takeOver i remote).nodes j = m.nodes j :=
  Function.update_of_ne hji _ _

/-- Idle nodes that take over what is around, as far as they accept it. -/
def gossip : Machine (Mesh ι) :=
  ⟨Idle, fun m m' ↦ ∃ i, ∃ remote ∈ m.sent,
    (m.nodes i).shouldAcceptRemote remote ∧ m' = m.takeOver i remote⟩

/-! ## One step -/

/-- What is around after a step was there before, or it is a fresh tombstone of the
node that took the step. -/
theorem mem_sent_takeOver {x : Entry} (hm : m.Idle) (hremote : remote ∈ m.sent)
    (hx : x ∈ (m.takeOver i remote).sent) :
    x ∈ m.sent ∨ ((m.takeOver i remote).nodes i).entries[x.path]? = some x ∧
      x.kind = .tombstone ∧ x.version.origin = (m.nodes i).origin ∧
      (m.nodes i).lamport < x.version.lamport ∧
      ∃ old ∈ m.sent, old.path = x.path ∧
        Entombs (m.nodes i) ((m.takeOver i remote).nodes i) x.path := by
  rw [takeOver_self]
  rcases Finset.mem_union.mp hx with hx | hx
  · exact .inl hx
  obtain ⟨k, hk⟩ := OrdMap.mem_values_iff.mp (List.mem_toFinset.mp hx)
  rcases recordRemote_cases (m.nodes i) remote k with heq | ⟨-, hentombs⟩
  · refine .inl ?_
    rw [heq, getElem?_receive] at hk
    split at hk
    · obtain rfl := Option.some.inj hk
      exact hremote
    · exact hm.mem_sent i k x hk
  · have hburied := hentombs
    obtain ⟨old, v, hold, -, hnew, ho, hlt, -⟩ := hentombs
    obtain rfl := Option.some.inj (hnew.symm.trans hk)
    exact .inr ⟨hk, rfl, ho, hlt, old, hm.mem_sent i k old hold, hm.atOwnPaths i k old hold,
      hburied⟩

omit [DecidableEq ι] in
/-- A fresh tombstone was not around before. -/
theorem Idle.version_ne {x y : Entry} (hm : m.Idle) (hx : x ∈ m.sent)
    (ho : y.version.origin = (m.nodes i).origin) (hlt : (m.nodes i).lamport < y.version.lamport) :
    x.version ≠ y.version := by
  intro hv
  rw [← hv] at ho hlt
  exact absurd (hm.hasSeen i x hx ho) hlt.not_ge

/-- Idle nodes stay idle. -/
theorem Idle.takeOver (hm : m.Idle) (hremote : remote ∈ m.sent)
    (hacc : (m.nodes i).shouldAcceptRemote remote) : (m.takeOver i remote).Idle := by
  obtain ⟨cs, -, hst⟩ := stamps_recordRemote (m.nodes i) remote
  have hissues := issues_recordRemote (m.nodes i) remote
  have hnode (j : ι) : ((m.takeOver i remote).nodes j).origin = (m.nodes j).origin ∧
      ((m.takeOver i remote).nodes j).gcWatermark = (m.nodes j).gcWatermark ∧
      (m.nodes j).lamport ≤ ((m.takeOver i remote).nodes j).lamport ∧
      ((m.takeOver i remote).nodes j).Sound := by
    by_cases hj : j = i
    · rw [hj, takeOver_self]
      exact ⟨hissues.origin_eq, hst.grown.gcWatermark_eq, hissues.lamport_le,
        (hm.sound i).moves ((hm.sound i).moves_recordRemote hacc)⟩
    · rw [takeOver_of_ne hj]
      exact ⟨rfl, rfl, le_rfl, hm.sound j⟩
  have hmem : ∀ j (k : Str) (e : Entry), ((m.takeOver i remote).nodes j).entries[k]? = some e →
      e ∈ (m.takeOver i remote).sent := by
    intro j k e he
    by_cases hj : j = i
    · rw [hj, takeOver_self] at he
      exact Finset.mem_union_right _ (List.mem_toFinset.mpr (OrdMap.mem_values_iff.mpr ⟨k, he⟩))
    · rw [takeOver_of_ne hj] at he
      exact Finset.mem_union_left _ (hm.mem_sent j k e he)
  constructor
  · intro j k hjk
    dsimp only at hjk
    rw [(hnode j).1, (hnode k).1] at hjk
    exact hm.origin_injective hjk
  · intro j k
    rw [(hnode j).2.1, (hnode k).2.1]
    exact hm.gcWatermark_eq j k
  · exact fun j ↦ (hnode j).2.2.2
  · intro j k e he
    by_cases hj : j = i
    · rw [hj, takeOver_self] at he
      rcases of_getElem?_recordRemote he with hold | ⟨hk, rfl⟩ | ⟨hp, -⟩
      · exact hm.atOwnPaths i k e hold
      · exact hk.symm
      · exact hp
    · rw [takeOver_of_ne hj] at he
      exact hm.atOwnPaths j k e he
  · exact hmem
  · intro e he
    rcases mem_sent_takeOver hm hremote he with hold | ⟨-, -, -, -, old, hold, hp, -⟩
    · exact hm.valid e hold
    · exact hp ▸ hm.valid old hold
  · intro j e he ht
    rcases mem_sent_takeOver hm hremote he with hold | ⟨hfresh, -⟩
    · rw [isVersionGced, (hnode j).2.1]
      exact hm.uncovered j e hold ht
    · rw [isVersionGced, (hnode j).2.1, hm.gcWatermark_eq j i, ← (hnode i).2.1]
      exact (hnode i).2.2.2.uncovered _ e hfresh ht
  · intro x hx y hy hp hv
    rcases mem_sent_takeOver hm hremote hx with hx | ⟨hx, -, ho, hlt, -⟩
    · rcases mem_sent_takeOver hm hremote hy with hy | ⟨-, -, ho, hlt, -⟩
      · exact hm.agree x hx y hy hp hv
      · exact absurd hv (hm.version_ne hx ho hlt)
    · rcases mem_sent_takeOver hm hremote hy with hy | ⟨hy, -⟩
      · exact absurd hv.symm (hm.version_ne hy ho hlt)
      · rw [hp] at hx
        exact Option.some.inj (hx.symm.trans hy)
  · intro j e he ho
    rw [(hnode j).1] at ho
    rcases mem_sent_takeOver hm hremote he with hold | ⟨hfresh, -, ho', -⟩
    · exact (hm.hasSeen j e hold ho).trans (hnode j).2.2.1
    · -- only the node itself issues versions of its origin
      obtain rfl : j = i := hm.origin_injective (ho.symm.trans ho')
      exact (hnode j).2.2.2.lamport_le _ e hfresh

/-! ## Progress -/

variable (hm : m.Idle) (hremote : remote ∈ m.sent)
  (hacc : (m.nodes i).shouldAcceptRemote remote)

include hm hacc in
theorem grows_takeOver (j : ι) : Grows (m.nodes j) ((m.takeOver i remote).nodes j) := by
  by_cases hj : j = i
  · rw [hj, takeOver_self]
    exact grows_recordRemote (hm.sound i) (isNewer_of_shouldAcceptRemote hacc)
  · rw [takeOver_of_ne hj]
    exact .refl _

include hm hremote in
/-- Only tombstones are new. -/
theorem live_takeOver : (m.takeOver i remote).live = m.live := by
  ext x
  rw [live, live, Finset.mem_filter, Finset.mem_filter]
  refine and_congr_left fun hlive ↦ ⟨fun hx ↦ ?_, fun hx ↦ Finset.mem_union_left _ hx⟩
  rcases mem_sent_takeOver hm hremote hx with hold | ⟨-, ht, -⟩
  · exact hold
  · exact absurd ht hlive

include hm hremote in
/-- If nothing is buried then nothing new comes up. -/
theorem sent_takeOver (h : ∀ k, ¬ Entombs (m.nodes i) ((m.takeOver i remote).nodes i) k) :
    (m.takeOver i remote).sent = m.sent := by
  refine Finset.Subset.antisymm (fun x hx ↦ ?_) Finset.subset_union_left
  rcases mem_sent_takeOver hm hremote hx with hold | ⟨-, -, -, -, -, -, -, hentombs⟩
  · exact hold
  · exact absurd hentombs (h _)

variable [Fintype ι]

/-- How much may still come to be buried, and then how much is still to be taken
over. -/
noncomputable def rank (m : Mesh ι) : ℕ ×ₗ ℕ :=
  toLex (∑ i, (exposed m.live (m.nodes i)).card,
    ∑ i, (m.sent.filter fun e ↦ (m.nodes i).isNewer e).card)

include hm hremote hacc in
theorem rank_takeOver_lt : (m.takeOver i remote).rank < m.rank := by
  have hgrows := grows_takeOver hm hacc
  have hexposed (j : ι) : (exposed m.live ((m.takeOver i remote).nodes j)).card ≤
      (exposed m.live (m.nodes j)).card := Finset.card_le_card (exposed_subset (hgrows j))
  rw [rank, rank, Prod.Lex.toLex_lt_toLex, live_takeOver hm hremote]
  by_cases hburied : ∃ k, Entombs (m.nodes i) ((m.takeOver i remote).nodes i) k
  · obtain ⟨k, hk⟩ := hburied
    refine .inl (Finset.sum_lt_sum (fun j _ ↦ hexposed j) ⟨i, Finset.mem_univ i, ?_⟩)
    refine Finset.card_lt_card (exposed_ssubset (hm.sound i) (hm.atOwnPaths i) ?_ (hgrows i) hk)
    exact fun p e he hlive ↦ Finset.mem_filter.mpr ⟨hm.mem_sent i p e he, hlive⟩
  · rw [sent_takeOver hm hremote (not_exists.mp hburied)]
    refine (Finset.sum_le_sum fun j _ ↦ hexposed j).lt_or_eq.imp id fun heq ↦ ⟨heq, ?_⟩
    have hnewer (j : ι) : (m.sent.filter fun e ↦ ((m.takeOver i remote).nodes j).isNewer e) ⊆
        m.sent.filter fun e ↦ (m.nodes j).isNewer e :=
      Finset.monotone_filter_right _ fun e _ he ↦ isNewer_of_grows (hgrows j) he
    refine Finset.sum_lt_sum (fun j _ ↦ Finset.card_le_card (hnewer j)) ⟨i, Finset.mem_univ i, ?_⟩
    refine Finset.card_lt_card ((Finset.ssubset_iff_of_subset (hnewer i)).mpr ⟨remote, ?_, ?_⟩)
    · exact Finset.mem_filter.mpr ⟨hremote, isNewer_of_shouldAcceptRemote hacc⟩
    · intro hmem
      rw [takeOver_self] at hmem
      exact not_isNewer_recordRemote _ _ (Finset.mem_filter.mp hmem).2

omit hm hremote hacc

theorem gossip_step (hm : m.Idle) (hstep : gossip.step m m') : m'.Idle ∧ m'.rank < m.rank := by
  obtain ⟨i, remote, hremote, hacc, rfl⟩ := hstep
  exact ⟨hm.takeOver hremote hacc, rank_takeOver_lt hm hremote hacc⟩

/-! ## Where it ends -/

omit [DecidableEq ι] [Fintype ι] in
/-- A node that accepts nothing has caught up with all that is around. -/
theorem Idle.caughtUp {e : Entry} (hm : m.Idle) (he : e ∈ m.sent)
    (hend : ¬ (m.nodes i).shouldAcceptRemote e) :
    ∃ y, (m.nodes i).entries[e.path]? = some y ∧ e.version ≤ y.version := by
  have hold : ¬ (m.nodes i).isNewer e := fun hnew ↦
    hend (shouldAcceptRemote_of_isNewer (hm.valid e he) (hm.uncovered i e he) hnew)
  rw [isNewer] at hold
  cases hy : (m.nodes i).entries[e.path]? with
  | none => exact absurd (by rw [hy]; rfl) hold
  | some y =>
    rw [hy] at hold
    exact ⟨y, rfl, by simpa using hold⟩

omit [Fintype ι] in
/-- Without a step left, all indexes are equal. -/
theorem Idle.entries_eq (hm : m.Idle) (hend : ∀ m', ¬ gossip.step m m') (i j : ι) :
    (m.nodes i).entries = (m.nodes j).entries := by
  have hcaught (i : ι) {e : Entry} (he : e ∈ m.sent) :
      ∃ y, (m.nodes i).entries[e.path]? = some y ∧ e.version ≤ y.version :=
    hm.caughtUp he fun hacc ↦ hend _ ⟨i, e, he, hacc, rfl⟩
  have hheld : ∀ (i j : ι) (k : Str) (x : Entry), (m.nodes i).entries[k]? = some x →
      (m.nodes j).entries[k]? = some x := by
    intro i j k x hx
    have hxs := hm.mem_sent i k x hx
    obtain rfl := hm.atOwnPaths i k x hx
    obtain ⟨y, hy, hxy⟩ := hcaught j hxs
    have hys := hm.mem_sent j _ y hy
    have hpath : y.path = x.path := hm.atOwnPaths j _ y hy
    obtain ⟨z, hz, hyz⟩ := hcaught i hys
    rw [hpath] at hz
    obtain rfl := Option.some.inj (hx.symm.trans hz)
    rw [hm.agree x hxs y hys hpath.symm (le_antisymm hxy hyz)] at hy ⊢
    exact hy
  exact OrdMap.ext_graph fun k e ↦ ⟨hheld i j k e, hheld j i k e⟩

/-- Three nodes: one whose file the second one has deleted, and one that knows of
neither. -/
def trio : Mesh (Fin 3) :=
  let other : Index := indexOf [⟨lit "q", .dir, none, none, 0, none, ⟨4, lit "C"⟩⟩]
  let nodes := ![{ behind with lamport := 11 }, ahead,
    { behind with origin := lit "C", entries := other }]
  ⟨nodes, Finset.univ.biUnion fun i ↦ (OrdMap.values (nodes i).entries).toFinset⟩

theorem idle_trio : trio.Idle where
  origin_injective := by decide +kernel
  gcWatermark_eq := by decide +kernel
  sound := by decide +kernel
  atOwnPaths := by decide +kernel
  mem_sent i k e he := Finset.mem_biUnion.mpr ⟨i, Finset.mem_univ i,
    List.mem_toFinset.mpr (OrdMap.mem_values_iff.mpr ⟨k, he⟩)⟩
  valid := by decide +kernel
  uncovered := by decide +kernel
  agree := by decide +kernel
  hasSeen := by decide +kernel

end Mesh

end Replica

end Lilsync
