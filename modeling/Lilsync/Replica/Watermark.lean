import Lilsync.Replica.Stamp

/-!
# What collecting tombstones does to the index
-/

namespace Lilsync

open Std (ExtTreeMap)
open Lilsync.Lib

namespace Replica

/-- The clock did not go back, and nothing was issued. -/
structure Ticks (r r' : Replica) : Prop where
  origin_eq : r'.origin = r.origin
  lamport_le : r.lamport ≤ r'.lamport
  minted_eq : r'.minted = r.minted

theorem ticks_raiseGcWatermark (r : Replica) (incoming : GcWatermark) :
    Ticks r (r.raiseGcWatermark incoming).1 := by
  rw [raiseGcWatermark]
  dsimp only
  split
  · rw [catchUp]
    split
    · next hlt => exact ⟨rfl, hlt.le, rfl⟩
    · exact ⟨rfl, le_rfl, rfl⟩
  · exact ⟨rfl, le_rfl, rfl⟩

theorem ticks_mergeGcWatermark (r : Replica) (incoming : GcWatermark) :
    Ticks r (r.mergeGcWatermark incoming).1 := by
  obtain ⟨ho, hl, hm⟩ := ticks_raiseGcWatermark r incoming
  rw [mergeGcWatermark]
  dsimp only
  split
  · exact ⟨ho, hl.trans (Nat.le_succ _), hm⟩
  · exact ⟨ho, hl, hm⟩

theorem ticks_gcTombstonesForConvergedRoot (r : Replica) :
    Ticks r r.gcTombstonesForConvergedRoot.1 := by
  rw [gcTombstonesForConvergedRoot]
  dsimp only
  split
  · exact ⟨rfl, le_rfl, rfl⟩
  · exact ticks_mergeGcWatermark r _

/-! ## The values of a watermark -/

/-- A value of a raised watermark was there before, or came in. -/
theorem of_getElem?_foldl_raiseWatermark {l : List (Str × Nat)} {acc : GcWatermark × Bool}
    {origin : Str} {lamport : Nat}
    (h : (l.foldl raiseWatermark acc).1[origin]? = some lamport) :
    acc.1[origin]? = some lamport ∨ (origin, lamport) ∈ l := by
  induction l generalizing acc with
  | nil => exact .inl h
  | cons x l ih =>
    rcases ih h with hraised | hmem
    · rw [raiseWatermark] at hraised
      split at hraised <;> dsimp only at hraised <;> rw [OrdMap.getElem?_insert_eq] at hraised <;>
        split at hraised
      · next ho => exact .inr (by simp [← ho, ← Option.some.inj hraised])
      · exact .inl hraised
      · next hle ho =>
        subst ho
        obtain rfl := Option.some.inj hraised
        cases hacc : acc.1[x.1]? with
        | some current => exact .inl rfl
        | none =>
          rw [hacc, Option.getD_none, Nat.not_lt, Nat.le_zero] at hle
          exact .inr (by simp [← hle])
      · exact .inl hraised
    · exact .inr (List.mem_cons_of_mem _ hmem)

theorem of_getElem?_mergeWatermark {r : Replica} {incoming : GcWatermark} {origin : Str}
    {lamport : Nat} (h : (r.mergeWatermark incoming).1.gcWatermark[origin]? = some lamport) :
    r.gcWatermark[origin]? = some lamport ∨ incoming[origin]? = some lamport :=
  (of_getElem?_foldl_raiseWatermark h).imp id ExtTreeMap.mem_toList_iff_getElem?_eq_some.mp

/-- A value of the watermark built from the tombstones is the clock value of one. -/
theorem of_getElem?_tombstoneWatermark {r : Replica} {origin : Str} {lamport : Nat}
    (h : r.tombstoneWatermark[origin]? = some lamport) :
    ∃ (k : Str) (e : Entry), r.entries[k]? = some e ∧ e.kind = .tombstone ∧
      e.version = ⟨lamport, origin⟩ := by
  refine List.foldlRecOn (OrdMap.values r.entries) _
    (motive := fun watermark : GcWatermark ↦ ∀ (origin : Str) (lamport : Nat),
      watermark[origin]? = some lamport → ∃ (k : Str) (e : Entry), r.entries[k]? = some e ∧
        e.kind = .tombstone ∧ e.version = ⟨lamport, origin⟩)
    (by simp) (fun watermark ih entry hentry origin lamport hl ↦ ?_) origin lamport h
  split at hl
  · exact ih origin lamport hl
  · next hkind =>
    obtain ⟨k, hk⟩ := OrdMap.mem_values_iff.mp hentry
    rw [OrdMap.getElem?_insert_eq] at hl
    split at hl
    · next ho =>
      subst ho
      have hself : ∃ (k : Str) (e : Entry), r.entries[k]? = some e ∧ e.kind = .tombstone ∧
          e.version = ⟨entry.version.lamport, entry.version.origin⟩ :=
        ⟨k, entry, hk, of_not_not hkind, rfl⟩
      rcases max_choice (watermark[entry.version.origin]?.getD 0) entry.version.lamport with
        hmax | hmax <;> rw [hmax] at hl <;> obtain rfl := Option.some.inj hl
      · cases hw : watermark[entry.version.origin]? with
        | none =>
          rw [hw, Option.getD_none, max_eq_left_iff, Nat.le_zero] at hmax
          rw [hmax] at hself
          exact hself
        | some current => exact ih _ current hw
      · exact hself
    · exact ih origin lamport hl

end Replica

end Lilsync
