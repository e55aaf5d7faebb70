import Mathlib

/-!
# Unambiguous encodings

An encoding is unambiguous when a value can be read off the front of a byte
string that starts with it: equal strings start with encodings of equal values
and go on equally.  Unambiguous encodings can be put one after the other, and a
list of values is determined by their encodings in a row.
-/

namespace Lilsync.Lib

variable {α β : Type}

/-- On the domain `D`, a value can be told from the front of a string. -/
def Unambiguous (enc : α → List UInt8) (D : α → Prop) : Prop :=
  ∀ a b r r', D a → D b → enc a ++ r = enc b ++ r' → a = b ∧ r = r'

namespace Unambiguous

variable {enc : α → List UInt8} {D : α → Prop}

theorem mono {D' : α → Prop} (h : Unambiguous enc D) (hD : ∀ a, D' a → D a) :
    Unambiguous enc D' :=
  fun a b r r' ha hb ↦ h a b r r' (hD a ha) (hD b hb)

theorem injective (h : Unambiguous enc D) {a b : α} (ha : D a) (hb : D b)
    (heq : enc a = enc b) : a = b := by
  have heq' : enc a ++ [] = enc b ++ [] := by rw [heq]
  exact (h a b [] [] ha hb heq').1

/-- Encodings of one length. -/
theorem ofLength {n : Nat} (hlen : ∀ a, D a → (enc a).length = n)
    (hinj : ∀ a b, D a → D b → enc a = enc b → a = b) : Unambiguous enc D := by
  intro a b r r' ha hb heq
  obtain ⟨henc, hr⟩ := List.append_inj heq ((hlen a ha).trans (hlen b hb).symm)
  exact ⟨hinj a b ha hb henc, hr⟩

/-- A tag, then the value if there is one. -/
theorem option {enc' : Option α → List UInt8} (h : Unambiguous enc D)
    (hsome : ∀ a, enc' (some a) = 1 :: enc a) (hnone : enc' none = [0]) :
    Unambiguous enc' fun o ↦ ∀ a ∈ o, D a := by
  intro o o' r r' ho ho' heq
  cases o with
  | none =>
    cases o' with
    | none => exact ⟨rfl, List.append_cancel_left heq⟩
    | some b =>
      rw [hnone, hsome] at heq
      exact absurd (List.cons.inj heq).1 (by decide)
  | some a =>
    cases o' with
    | none =>
      rw [hnone, hsome] at heq
      exact absurd (List.cons.inj heq).1 (by decide)
    | some b =>
      rw [hsome, hsome] at heq
      obtain ⟨rfl, hr⟩ := h a b r r' (ho a rfl) (ho' b rfl) (List.cons.inj heq).2
      exact ⟨rfl, hr⟩

/-- A fixed prefix is passed over. -/
theorem prepend (h : Unambiguous enc D) (pre : List UInt8) :
    Unambiguous (fun a ↦ pre ++ enc a) D := by
  intro a b r r' ha hb heq
  rw [List.append_assoc, List.append_assoc] at heq
  exact h a b r r' ha hb (List.append_cancel_left heq)

/-- Values of a list, each read off in turn. -/
theorem flatMap_injective (h : Unambiguous enc D) (hne : ∀ a, enc a ≠ []) {l l' : List α}
    (hl : ∀ a ∈ l, D a) (hl' : ∀ a ∈ l', D a) (heq : l.flatMap enc = l'.flatMap enc) : l = l' := by
  induction l generalizing l' with
  | nil =>
    cases l' with
    | nil => rfl
    | cons b l' =>
      rw [List.flatMap_nil, List.flatMap_cons, eq_comm, List.append_eq_nil_iff] at heq
      exact absurd heq.1 (hne b)
  | cons a l ih =>
    cases l' with
    | nil =>
      rw [List.flatMap_nil, List.flatMap_cons, List.append_eq_nil_iff] at heq
      exact absurd heq.1 (hne a)
    | cons b l' =>
      rw [List.flatMap_cons, List.flatMap_cons] at heq
      rw [List.forall_mem_cons] at hl hl'
      obtain ⟨rfl, hrest⟩ := h a b _ _ hl.1 hl'.1 heq
      rw [ih hl.2 hl'.2 hrest]

end Unambiguous

/-! ## Numbers -/

/-- The `width` low bytes of a number, most significant first. -/
def bigEndian (width n : Nat) : List UInt8 :=
  (List.range width).reverse.map fun i ↦ (n >>> (8 * i)).toUInt8

theorem eq_of_digits {width n m : Nat} (hn : n < 256 ^ width) (hm : m < 256 ^ width)
    (h : ∀ i < width, n / 256 ^ i % 256 = m / 256 ^ i % 256) : n = m := by
  induction width generalizing n m with
  | zero => omega
  | succ width ih =>
    have hlow := h 0 (Nat.succ_pos _)
    rw [Nat.pow_zero, Nat.div_one, Nat.div_one] at hlow
    have hhigh : n / 256 = m / 256 := by
      refine ih (by rw [Nat.pow_succ] at hn; omega) (by rw [Nat.pow_succ] at hm; omega) ?_
      intro i hi
      have := h (i + 1) (Nat.succ_lt_succ hi)
      rwa [Nat.pow_succ', ← Nat.div_div_eq_div_mul, ← Nat.div_div_eq_div_mul] at this
    omega

theorem unambiguous_bigEndian (width : Nat) :
    Unambiguous (bigEndian width) fun n ↦ n < 256 ^ width := by
  refine .ofLength (n := width) (fun n _ ↦ by simp [bigEndian]) fun n m hn hm heq ↦ ?_
  refine eq_of_digits hn hm fun i hi ↦ ?_
  have hbyte := List.map_inj_left.mp heq i (by simpa using hi)
  have hnat := congrArg UInt8.toNat hbyte
  simpa [Nat.shiftRight_eq_div_pow, pow_mul, Nat.toUInt8] using hnat

/-- A string after its length. -/
theorem unambiguous_lengthPrefixed (width : Nat) :
    Unambiguous (fun s : List UInt8 ↦ bigEndian width s.length ++ s)
      fun s ↦ s.length < 256 ^ width := by
  intro s s' r r' hs hs' heq
  rw [List.append_assoc, List.append_assoc] at heq
  obtain ⟨hlen, hrest⟩ := unambiguous_bigEndian width _ _ _ _ hs hs' heq
  exact List.append_inj hrest hlen

end Lilsync.Lib
