import Mathlib

/-!
# Numbers as strings of bytes

The number a string of bytes stands for in base 256, most significant byte
first.  Strings without a leading zero are determined by their number.
-/

namespace Lilsync.Lib.Radix

/-- The number bytes stand for. -/
def value (bytes : List UInt8) : Nat := Nat.ofDigits 256 (bytes.reverse.map UInt8.toNat)

/-- There is no leading zero. -/
def Canonical (bytes : List UInt8) : Prop := bytes.head? ≠ some 0

variable {b : UInt8} {bytes bytes' : List UInt8}

@[simp] theorem value_nil : value [] = 0 := rfl

theorem value_cons (b : UInt8) (bytes : List UInt8) :
    value (b :: bytes) = b.toNat * 256 ^ bytes.length + value bytes := by
  rw [value, List.reverse_cons, List.map_append, Nat.ofDigits_append, List.length_map,
    List.length_reverse, List.map_singleton, Nat.ofDigits_singleton, value]
  ring

theorem value_lt (bytes : List UInt8) : value bytes < 256 ^ bytes.length := by
  have hdigits : ∀ d ∈ bytes.reverse.map UInt8.toNat, d < 256 := by
    intro d hd
    obtain ⟨b, -, rfl⟩ := List.mem_map.mp hd
    exact b.toNat_lt
  have hlt := Nat.ofDigits_lt_base_pow_length (by decide) hdigits
  rwa [List.length_map, List.length_reverse] at hlt

theorem value_eq_zero_iff : value bytes = 0 ↔ ∀ b ∈ bytes, b = 0 := by
  induction bytes with
  | nil => simp
  | cons b bytes ih =>
    rw [value_cons, List.forall_mem_cons, ← ih, Nat.add_eq_zero_iff, Nat.mul_eq_zero]
    refine and_congr_left fun _ ↦ ?_
    rw [or_iff_left (pow_ne_zero _ (by decide))]
    exact UInt8.toNat_inj (b := 0)

theorem canonical_cons_iff : Canonical (b :: bytes) ↔ b ≠ 0 := by
  rw [Canonical, List.head?_cons, ne_eq, Option.some_inj]

/-- Without a leading zero, the length shows in the number. -/
theorem canonical_cons_iff_pow_le :
    Canonical (b :: bytes) ↔ 256 ^ bytes.length ≤ value (b :: bytes) := by
  rw [canonical_cons_iff, value_cons]
  constructor
  · intro hb
    have hpos : 0 < b.toNat := Nat.pos_of_ne_zero fun h ↦ hb (UInt8.toNat_inj.mp h)
    exact (Nat.le_mul_of_pos_left _ hpos).trans (Nat.le_add_right _ _)
  · rintro hle rfl
    have hlt := value_lt bytes
    change 256 ^ bytes.length ≤ 0 * _ + _ at hle
    omega

/-- Without leading zeros, equal numbers are written alike. -/
theorem Canonical.eq_of_value_eq (h : Canonical bytes) (h' : Canonical bytes')
    (heq : value bytes = value bytes') : bytes = bytes' := by
  have hdigits : ∀ {bytes}, Canonical bytes →
      Nat.digits 256 (value bytes) = bytes.reverse.map UInt8.toNat := by
    intro bytes h
    refine Nat.digits_ofDigits 256 (by decide) _ ?_ fun hne ↦ ?_
    · intro d hd
      obtain ⟨b, -, rfl⟩ := List.mem_map.mp hd
      exact b.toNat_lt
    · cases bytes with
      | nil => exact absurd rfl hne
      | cons b bytes =>
        simp only [List.reverse_cons, List.map_append, List.map_singleton,
          List.getLast_append_singleton]
        exact fun hz ↦ canonical_cons_iff.mp h (UInt8.toNat_inj.mp hz)
  have hmap : bytes.reverse.map UInt8.toNat = bytes'.reverse.map UInt8.toNat := by
    rw [← hdigits h, ← hdigits h', heq]
  exact List.reverse_inj.mp (List.map_injective_iff.mpr (fun _ _ ↦ UInt8.toNat_inj.mp) hmap)

end Lilsync.Lib.Radix
