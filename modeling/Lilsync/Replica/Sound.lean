import Lilsync.Replica.Watermark

/-!
# Clock, watermark and index fit together

The clock is at or above every version in the index and at or above the watermark
of the own origin, and no tombstone in the index is covered (`Sound`).  A version
issued by a sound replica is greater than all in the index and not covered, so
what carries it is not pruned at birth.  The methods move a replica by stamping,
receiving and collecting (`Move`), and every move keeps it sound.
-/

namespace Lilsync

open Std (ExtTreeMap)
open Lilsync.Lib

namespace Replica

variable {r r' : Replica} {st st' : Recorded} {remote : Entry} {incoming : GcWatermark}

/-! ## Sound replicas -/

/-- Clock, watermark and index fit together. -/
structure Sound (r : Replica) : Prop where
  lamport_le : ∀ (k : Str) (e : Entry), r.entries[k]? = some e → e.version.lamport ≤ r.lamport
  ownWatermark_le : r.ownWatermark ≤ r.lamport
  uncovered : ∀ (k : Str) (e : Entry), r.entries[k]? = some e → e.kind = .tombstone →
    r.isVersionGced e.version = false

/-- The version wins over everything in the index, and it is not covered. -/
structure Wins (r : Replica) (version : Version) : Prop where
  newest : ∀ (k : Str) (e : Entry), r.entries[k]? = some e → e.version < version
  uncovered : r.isVersionGced version = false

theorem isVersionGced_eq_false_iff {version : Version} : r.isVersionGced version = false ↔
    ∀ lamport : Nat, r.gcWatermark[version.origin]? = some lamport → lamport < version.lamport := by
  rw [isVersionGced]
  cases r.gcWatermark[version.origin]? <;> simp

theorem le_ownWatermark {lamport : Nat} (h : r.gcWatermark[r.origin]? = some lamport) :
    lamport ≤ r.ownWatermark := by
  rw [ownWatermark, h]
  exact le_rfl

/-- What a sound replica issues wins. -/
theorem Sound.wins (h : r.Sound) : r.Wins r.nextVersion.1 where
  newest k e he := Version.lt_of_lamport_lt (Nat.lt_succ_of_le (h.lamport_le k e he))
  uncovered := isVersionGced_eq_false_iff.mpr fun _ hl ↦
    Nat.lt_succ_of_le ((le_ownWatermark hl).trans h.ownWatermark_le)

/-! ## Moves -/

/-- What the methods do to a replica, one thing after the other.  Every version is
issued by a stamp. -/
inductive Move : Replica → Replica → Prop where
  | stamp (st : Recorded) (path : Str) (make : Version → Entry) :
    (∀ v, (make v).version = v) → st.1.Wins st.1.nextVersion.1 →
    Move st.1 (stamp st path st.1.entries[path]? make).1
  | receive (r : Replica) (remote : Entry) : r.shouldAcceptRemote remote → Move r (r.receive remote)
  | collect (r : Replica) (incoming : GcWatermark) : Move r (r.mergeGcWatermark incoming).1

/-- One move after the other. -/
abbrev Moves : Replica → Replica → Prop := Relation.ReflTransGen Move

theorem Sound.stamp (h : st.1.Sound) (path : Str) {make : Version → Entry}
    (hversion : ∀ v, (make v).version = v) (old : Option Entry) :
    (stamp st path old make).1.Sound := by
  have hentry : ∀ (k : Str) (e : Entry),
      (Replica.stamp st path old make).1.entries[k]? = some e →
      e.version = st.1.nextVersion.1 ∨ st.1.entries[k]? = some e := by
    intro k e he
    change (st.1.entries.insert path (make st.1.nextVersion.1))[k]? = some e at he
    rw [OrdMap.getElem?_insert_eq] at he
    split at he
    · obtain rfl := Option.some.inj he
      exact .inl (hversion _)
    · exact .inr he
  refine ⟨fun k e he ↦ ?_, h.ownWatermark_le.trans (Nat.le_succ _), fun k e he ht ↦ ?_⟩
  · rcases hentry k e he with hv | hold
    · rw [hv]
      exact le_rfl
    · exact (h.lamport_le k e hold).trans (Nat.le_succ _)
  · change st.1.isVersionGced e.version = false
    rcases hentry k e he with hv | hold
    · rw [hv]
      exact h.wins.uncovered
    · exact h.uncovered k e hold ht

theorem Sound.receive (h : r.Sound)
    (hremote : remote.kind = .tombstone → r.isVersionGced remote.version = false) :
    (r.receive remote).Sound := by
  refine ⟨fun k e he ↦ ?_, h.ownWatermark_le.trans (Nat.le_max_left _ _), fun k e he ht ↦ ?_⟩
  · rw [getElem?_receive] at he
    split at he
    · obtain rfl := Option.some.inj he
      exact Nat.le_max_right _ _
    · exact (h.lamport_le k e he).trans (Nat.le_max_left _ _)
  · change r.isVersionGced e.version = false
    rw [getElem?_receive] at he
    split at he
    · obtain rfl := Option.some.inj he
      exact hremote ht
    · exact h.uncovered k e he ht

/-- A tombstone that is accepted is not covered. -/
theorem uncovered_of_shouldAcceptRemote (h : r.shouldAcceptRemote remote)
    (ht : remote.kind = .tombstone) : r.isVersionGced remote.version = false := by
  rw [shouldAcceptRemote] at h
  by_contra hn
  simp [ht, hn] at h

/-! ## Pruning -/

/-- Pruning leaves everything but the covered tombstones. -/
theorem getElem?_prune (r : Replica) (k : Str) (e : Entry) : r.prune.1.entries[k]? = some e ↔
    r.entries[k]? = some e ∧ ¬ (e.kind = .tombstone ∧ r.isVersionGced e.version) := by
  have herase : ∀ (l : List Str) (m : Index),
      (l.foldl (fun entries key ↦ entries.erase key) m)[k]? = if k ∈ l then none else m[k]? := by
    intro l
    induction l with
    | nil => simp
    | cons j l ih =>
      intro m
      rw [List.foldl_cons, ih, OrdMap.getElem?_erase_eq]
      by_cases hj : j = k
      · simp [hj]
      · simp [hj, Ne.symm hj]
  have hmem : ∀ e', r.entries[k]? = some e' →
      (k ∈ r.coveredTombstones ↔ e'.kind = .tombstone ∧ r.isVersionGced e'.version) := by
    intro e' he'
    simp only [coveredTombstones, List.mem_map, List.mem_filter, Bool.and_eq_true,
      decide_eq_true_eq]
    constructor
    · rintro ⟨⟨j, e''⟩, ⟨hj, hc⟩, rfl⟩
      have hj := ExtTreeMap.mem_toList_iff_getElem?_eq_some.mp hj
      obtain rfl := Option.some.inj (hj.symm.trans he')
      exact hc
    · exact fun hc ↦ ⟨(k, e'), ⟨ExtTreeMap.mem_toList_iff_getElem?_eq_some.mpr he', hc⟩, rfl⟩
  change (r.coveredTombstones.foldl _ r.entries)[k]? = some e ↔ _
  rw [herase]
  constructor
  · intro h
    split at h
    · cases h
    · next hk => exact ⟨h, fun hc ↦ hk ((hmem e h).mpr hc)⟩
  · rintro ⟨he, hc⟩
    rw [if_neg fun hk ↦ hc ((hmem e he).mp hk)]
    exact he

/-- Pruning makes a replica sound whose clock is high enough. -/
theorem sound_prune
    (hle : ∀ (k : Str) (e : Entry), r.entries[k]? = some e → e.version.lamport ≤ r.lamport)
    (hown : r.ownWatermark ≤ r.lamport) : r.prune.1.Sound := by
  refine ⟨fun k e he ↦ ?_, hown, fun k e he ht ↦ ?_⟩
  · exact hle k e ((getElem?_prune r k e).mp he).1
  · have hc := ((getElem?_prune r k e).mp he).2
    exact Bool.eq_false_of_not_eq_true fun hg ↦ hc ⟨ht, hg⟩

/-! ## Merging watermarks -/

/-- A turn of the loop that reports no change leaves every value as it is. -/
theorem getD_raiseWatermark {st : GcWatermark × Bool} {x : Str × Nat}
    (h : (raiseWatermark st x).2 = false) : st.2 = false ∧
    ∀ origin : Str, (raiseWatermark st x).1[origin]?.getD 0 = st.1[origin]?.getD 0 := by
  rw [raiseWatermark.eq_def] at h ⊢
  dsimp only at h ⊢
  split at h
  · cases h
  · next hle =>
    refine ⟨h, fun origin ↦ ?_⟩
    rw [if_neg hle, OrdMap.getElem?_insert_eq]
    split
    · next heq => rw [heq, Option.getD_some]
    · rfl

theorem getD_foldl_raiseWatermark {l : List (Str × Nat)} {st : GcWatermark × Bool}
    (h : (l.foldl raiseWatermark st).2 = false) : st.2 = false ∧
    ∀ origin : Str, (l.foldl raiseWatermark st).1[origin]?.getD 0 = st.1[origin]?.getD 0 := by
  induction l generalizing st with
  | nil => exact ⟨h, fun _ ↦ rfl⟩
  | cons x l ih =>
    rw [List.foldl_cons] at h ⊢
    obtain ⟨hchanged, hl⟩ := ih h
    obtain ⟨hst, hx⟩ := getD_raiseWatermark hchanged
    exact ⟨hst, fun origin ↦ (hl origin).trans (hx origin)⟩

theorem ownWatermark_raiseGcWatermark_le (h : r.ownWatermark ≤ r.lamport) :
    (r.raiseGcWatermark incoming).1.ownWatermark ≤ (r.raiseGcWatermark incoming).1.lamport := by
  rw [raiseGcWatermark]
  dsimp only
  split
  · rw [catchUp]
    split
    · exact le_rfl
    · next hle => exact Nat.le_of_not_lt hle
  · next hchanged =>
    obtain ⟨-, heq⟩ := getD_foldl_raiseWatermark (Bool.eq_false_of_not_eq_true hchanged)
    exact (heq r.origin).trans_le h

theorem lamport_le_raiseGcWatermark : r.lamport ≤ (r.raiseGcWatermark incoming).1.lamport := by
  rw [raiseGcWatermark]
  dsimp only
  split
  · rw [catchUp]
    split
    · next hlt => exact hlt.le
    · exact le_rfl
  · exact le_rfl

theorem entries_raiseGcWatermark :
    (r.raiseGcWatermark incoming).1.entries = r.entries := by
  rw [raiseGcWatermark]
  dsimp only
  split
  · rw [catchUp]
    split <;> rfl
  · rfl

theorem gcWatermark_raiseGcWatermark :
    (r.raiseGcWatermark incoming).1.gcWatermark = (r.mergeWatermark incoming).1.gcWatermark := by
  rw [raiseGcWatermark]
  dsimp only
  split
  · rw [catchUp]
    split <;> rfl
  · rfl

theorem gcWatermark_mergeGcWatermark :
    (r.mergeGcWatermark incoming).1.gcWatermark = (r.mergeWatermark incoming).1.gcWatermark := by
  rw [mergeGcWatermark]
  dsimp only
  split <;> exact gcWatermark_raiseGcWatermark

/-- What is left once a watermark is merged: everything but the tombstones it covers. -/
theorem getElem?_mergeGcWatermark (r : Replica) (incoming : GcWatermark) (k : Str) (e : Entry) :
    (r.mergeGcWatermark incoming).1.entries[k]? = some e ↔ r.entries[k]? = some e ∧
      ¬ (e.kind = .tombstone ∧ (r.mergeGcWatermark incoming).1.isVersionGced e.version) := by
  have hentries : (r.mergeGcWatermark incoming).1.entries =
      (r.raiseGcWatermark incoming).1.prune.1.entries := by
    rw [mergeGcWatermark]
    dsimp only
    split <;> rfl
  rw [hentries, getElem?_prune, entries_raiseGcWatermark, isVersionGced, isVersionGced,
    gcWatermark_raiseGcWatermark, gcWatermark_mergeGcWatermark]

theorem Sound.mergeGcWatermark (h : r.Sound) (incoming : GcWatermark) :
    (r.mergeGcWatermark incoming).1.Sound := by
  have hprune : (r.raiseGcWatermark incoming).1.prune.1.Sound := by
    refine sound_prune (fun k e he ↦ ?_) (ownWatermark_raiseGcWatermark_le h.ownWatermark_le)
    rw [entries_raiseGcWatermark] at he
    exact (h.lamport_le k e he).trans lamport_le_raiseGcWatermark
  rw [Replica.mergeGcWatermark]
  dsimp only
  split
  · refine ⟨fun k e he ↦ ?_, hprune.ownWatermark_le.trans (Nat.le_succ _), hprune.uncovered⟩
    exact (hprune.lamport_le k e he).trans (Nat.le_succ _)
  · exact hprune

/-! ## Runs of moves -/

/-- A sound replica stays sound. -/
theorem Sound.move (h : r.Sound) (hm : Move r r') : r'.Sound := by
  cases hm with
  | stamp st path make hversion _ => exact h.stamp path hversion _
  | receive r remote hacc => exact h.receive (uncovered_of_shouldAcceptRemote hacc)
  | collect r incoming => exact h.mergeGcWatermark incoming

theorem Sound.moves (h : r.Sound) (hm : Moves r r') : r'.Sound := by
  induction hm with
  | refl => exact h
  | tail _ hstep ih => exact ih.move hstep

/-- Stamping moves a sound replica. -/
theorem Sound.moves_of_stamps (h : st.1.Sound) (hs : Stamps st st') : Moves st.1 st'.1 := by
  induction hs with
  | refl => exact .refl
  | tail _ hstep ih =>
    obtain ⟨path, make, -, hversion⟩ := hstep
    exact ih.tail (.stamp _ path make hversion (h.moves ih).wins)

/-- So does recording a remote entry that is accepted. -/
theorem Sound.moves_recordRemote (h : r.Sound) (hacc : r.shouldAcceptRemote remote) :
    Moves r (recordRemote r remote).1 := by
  obtain ⟨cs, -, hst⟩ := stamps_recordRemote r remote
  have hreceive : Sound (r.receive remote, ([] : List Change)).1 :=
    h.receive (uncovered_of_shouldAcceptRemote hacc)
  have hmoves := hreceive.moves_of_stamps hst
  exact .head (.receive r remote hacc) hmoves

/-- Every version issued on the way from one replica to another won over the index
of the moment, and was not covered. -/
def IssuesWinners (r r' : Replica) : Prop :=
  ∀ v ∈ r'.minted, v ∈ r.minted ∨
    ∃ r₀, Moves r r₀ ∧ Moves r₀ r' ∧ v = r₀.nextVersion.1 ∧ r₀.Wins v

theorem Moves.issuesWinners (h : Moves r r') : IssuesWinners r r' := by
  induction h with
  | refl => exact fun v hv ↦ .inl hv
  | @tail r₁ r₂ h hstep ih =>
    intro v hv
    have hlater : v ∈ r₁.minted → v ∈ r.minted ∨
        ∃ r₀, Moves r r₀ ∧ Moves r₀ r₂ ∧ v = r₀.nextVersion.1 ∧ r₀.Wins v := by
      intro hv
      refine (ih v hv).imp id ?_
      rintro ⟨r₀, h₀, h₁, hv₀, hwins⟩
      exact ⟨r₀, h₀, h₁.tail hstep, hv₀, hwins⟩
    cases hstep with
    | stamp st path make hversion hwins =>
      rcases List.mem_cons.mp hv with rfl | hv
      · exact .inr ⟨st.1, h, .single (.stamp st path make hversion hwins), rfl, hwins⟩
      · exact hlater hv
    | receive remote hacc => exact hlater hv
    | collect incoming =>
      rw [(ticks_mergeGcWatermark _ _).minted_eq] at hv
      exact hlater hv

theorem moves_gcTombstonesForConvergedRoot (r : Replica) :
    Moves r r.gcTombstonesForConvergedRoot.1 := by
  rw [gcTombstonesForConvergedRoot]
  dsimp only
  split
  · exact .refl
  · exact .single (.collect r _)

end Replica

end Lilsync
