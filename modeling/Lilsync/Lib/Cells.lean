import Mathlib

/-!
# Cells that are cleared once they are stable

Every node has a cell for each key, empty or with a version in it.  A version goes
into a cell only if it is above all that the cell has had.  A version is *stable* at a
key once every node has had it there, or one above it.

Cells may be cleared of stable versions.  What is in a cell is then still the greatest
version it has had (`Kept`), so what was cleared does not come back, nor does anything
before it.
-/

namespace Lilsync.Lib.Cells

variable {ι K V : Type} [LinearOrder V]

/-- Every node has had the version in its cell, or one above it. -/
def Stable (had : ι → K → Set V) (k : K) (v : V) : Prop := ∀ i, ∃ w ∈ had i k, v ≤ w

/-- Cells hold the greatest version they have had, or were cleared of stable versions. -/
structure Kept (had : ι → K → Set V) (cell : ι → K → Option V) : Prop where
  isGreatest : ∀ i k v, cell i k = some v → IsGreatest (had i k) v
  stable : ∀ i k, cell i k = none → ∀ v ∈ had i k, Stable had k v

variable {had had' : ι → K → Set V} {cell cell' : ι → K → Option V} {i j : ι} {k : K} {v w : V}

theorem Stable.mono (h : Stable had k v) (hle : ∀ i k, had i k ⊆ had' i k) : Stable had' k v := by
  intro i
  obtain ⟨w, hw, hvw⟩ := h i
  exact ⟨w, hle i k hw, hvw⟩

theorem Stable.of_le (h : Stable had k w) (hvw : v ≤ w) : Stable had k v := by
  intro i
  obtain ⟨u, hu, hwu⟩ := h i
  exact ⟨u, hu, hvw.trans hwu⟩

namespace Kept

/-- No cell holds anything before a stable version. -/
theorem le_of_stable (h : Kept had cell) (hv : Stable had k v) (hcell : cell i k = some w) :
    v ≤ w := by
  obtain ⟨u, hu, hvu⟩ := hv i
  exact hvu.trans ((h.isGreatest i k w hcell).2 hu)

/-- What a cell holds is above all that a cleared one has had. -/
theorem mem_upperBounds_of_none (h : Kept had cell) (hi : cell i k = none)
    (hj : cell j k = some v) : v ∈ upperBounds (had i k) :=
  fun w hw ↦ h.le_of_stable (h.stable i k hi w hw) hj

/-- What is above the content of a cell is above all that it has had. -/
theorem mem_upperBounds_of_lt (h : Kept had cell) (hi : cell i k = some v) (hvw : v < w) :
    w ∈ upperBounds (had i k) :=
  fun _ hu ↦ ((h.isGreatest i k v hi).2 hu).trans hvw.le

/-- A cell is empty, or what it has had reaches up to its content. -/
theorem le_or_stable (h : Kept had cell) (hw : w ∈ had i k) (hvw : v ≤ w) :
    (∃ u, cell i k = some u ∧ v ≤ u) ∨ Stable had k v := by
  cases hcell : cell i k with
  | none => exact .inr ((h.stable i k hcell w hw).of_le hvw)
  | some u => exact .inl ⟨u, rfl, hvw.trans ((h.isGreatest i k u hcell).2 hw)⟩

theorem clear (h : Kept had cell)
    (hcell : ∀ i k, cell' i k = cell i k ∨
      cell' i k = none ∧ ∀ v, cell i k = some v → Stable had k v) : Kept had cell' := by
  refine ⟨fun i k v hv ↦ ?_, fun i k hnone v hv ↦ ?_⟩
  · rcases hcell i k with heq | ⟨hnone, -⟩
    · exact h.isGreatest i k v (heq ▸ hv)
    · rw [hnone] at hv
      cases hv
  · rcases hcell i k with heq | ⟨-, hstable⟩
    · exact h.stable i k (heq ▸ hnone) v hv
    · cases hold : cell i k with
      | none => exact h.stable i k hold v hv
      | some w => exact (hstable w hold).of_le ((h.isGreatest i k w hold).2 hv)

end Kept

/-! ## Putting a version into a cell -/

/-- What the cells have had once a version is in one of them. -/
def putHad (had : ι → K → Set V) (i : ι) (k : K) (v : V) : ι → K → Set V :=
  fun j l ↦ {w | w ∈ had j l ∨ j = i ∧ l = k ∧ w = v}

omit [LinearOrder V] in
theorem subset_putHad (had : ι → K → Set V) (i : ι) (k : K) (v : V) (j : ι) (l : K) :
    had j l ⊆ putHad had i k v j l := fun _ ↦ .inl

omit [LinearOrder V] in
theorem mem_putHad_self : v ∈ putHad had i k v i k := .inr ⟨rfl, rfl, rfl⟩

/-- A version goes into a cell if it is above all that the cell has had. -/
theorem Kept.put (h : Kept had cell) (hv : v ∈ upperBounds (had i k)) (hself : cell' i k = some v)
    (hother : ∀ j l, ¬ (j = i ∧ l = k) → cell' j l = cell j l) :
    Kept (putHad had i k v) cell' := by
  have hhad : ∀ j l, ¬ (j = i ∧ l = k) → putHad had i k v j l = had j l := by
    intro j l hne
    ext w
    exact ⟨fun hw ↦ hw.resolve_right fun ⟨hj, hl, _⟩ ↦ hne ⟨hj, hl⟩, .inl⟩
  refine ⟨fun j l w hw ↦ ?_, fun j l hnone w hw ↦ ?_⟩
  · by_cases hjl : j = i ∧ l = k
    · obtain ⟨rfl, rfl⟩ := hjl
      obtain rfl := Option.some.inj (hself.symm.trans hw)
      exact ⟨mem_putHad_self, fun u hu ↦ hu.elim (fun hu ↦ hv hu) fun ⟨_, _, heq⟩ ↦ heq.le⟩
    · rw [hhad j l hjl]
      exact h.isGreatest j l w (hother j l hjl ▸ hw)
  · by_cases hjl : j = i ∧ l = k
    · obtain ⟨rfl, rfl⟩ := hjl
      rw [hself] at hnone
      cases hnone
    · rw [hhad j l hjl] at hw
      exact (h.stable j l (hother j l hjl ▸ hnone) w hw).mono (subset_putHad had i k v)

end Lilsync.Lib.Cells
