import Mathlib

/-!
# UTF-8

Byte strings cut into encoded characters and ill-formed chunks, the way a
decoder that replaces ill-formed input does it: an ill-formed chunk is a lead
byte with those continuation bytes that could still have followed it.
-/

namespace Lilsync.Lib.Utf8

/-- The bytes that may continue a character. -/
def isContinuation (b : UInt8) : Bool := 0x80 ≤ b && b ≤ 0xBF

/-- The number of bytes a lead byte announces, 0 if no character starts with it. -/
def width (b : UInt8) : Nat :=
  if b < 0x80 then 1
  else if b < 0xC2 then 0
  else if b < 0xE0 then 2
  else if b < 0xF0 then 3
  else if b < 0xF5 then 4
  else 0

/-- The second bytes that may follow a lead byte: no overlong encodings, no
surrogates, nothing beyond the last code point. -/
def isSecond (lead b : UInt8) : Bool :=
  if lead = 0xE0 then 0xA0 ≤ b && b ≤ 0xBF
  else if lead = 0xED then 0x80 ≤ b && b ≤ 0x9F
  else if lead = 0xF0 then 0x90 ≤ b && b ≤ 0xBF
  else if lead = 0xF4 then 0x80 ≤ b && b ≤ 0x8F
  else isContinuation b

/-- The first chunk of a non-empty string: its length, and whether it encodes a
character. -/
def firstChunk : List UInt8 → Nat × Bool
  | [] => (0, true)
  | b₀ :: rest =>
    if width b₀ = 1 then (1, true)
    else if width b₀ = 0 then (1, false)
    else match rest with
      | [] => (1, false)
      | b₁ :: rest =>
        if !isSecond b₀ b₁ then (1, false)
        else if width b₀ = 2 then (2, true)
        else match rest with
          | [] => (2, false)
          | b₂ :: rest =>
            if !isContinuation b₂ then (2, false)
            else if width b₀ = 3 then (3, true)
            else match rest with
              | [] => (3, false)
              | b₃ :: _ => if isContinuation b₃ then (4, true) else (3, false)

/-- The encoding of U+FFFD. -/
def replacement : List UInt8 := [0xEF, 0xBF, 0xBD]

def lossyFrom : Nat → List UInt8 → List UInt8
  | 0, _ => []
  | _ + 1, [] => []
  | n + 1, s =>
    let chunk := firstChunk s
    (if chunk.2 then s.take chunk.1 else replacement) ++ lossyFrom n (s.drop chunk.1)

/-- Replace every ill-formed chunk by U+FFFD. -/
def lossy (s : List UInt8) : List UInt8 := lossyFrom s.length s

def validFrom : Nat → List UInt8 → Bool
  | 0, s => s.isEmpty
  | _ + 1, [] => true
  | n + 1, s =>
    let chunk := firstChunk s
    chunk.2 && validFrom n (s.drop chunk.1)

/-- The string is well-formed. -/
def valid (s : List UInt8) : Bool := validFrom s.length s

/-! ## Decoding names -/

variable {s : List UInt8} {b : UInt8}

theorem firstChunk_pos (h : s ≠ []) : 0 < (firstChunk s).1 := by
  obtain ⟨b₀, rest, rfl⟩ := List.exists_cons_of_ne_nil h
  unfold firstChunk
  repeat' split
  all_goals simp_all

theorem lossyFrom_succ (n : Nat) (h : s ≠ []) : lossyFrom (n + 1) s =
    (if (firstChunk s).2 then s.take (firstChunk s).1 else replacement)
      ++ lossyFrom n (s.drop (firstChunk s).1) := by
  cases s
  · exact absurd rfl h
  · rfl

theorem lossyFrom_ne_nil {n : Nat} (hn : s.length ≤ n) (h : s ≠ []) : lossyFrom n s ≠ [] := by
  obtain ⟨b₀, rest, rfl⟩ := List.exists_cons_of_ne_nil h
  cases n with
  | zero => simp at hn
  | succ n =>
    rw [lossyFrom_succ n h]
    split
    · have hpos := firstChunk_pos h
      intro hnil
      have hlen := congrArg List.length (List.append_eq_nil_iff.mp hnil).1
      simp only [List.length_take, List.length_cons, List.length_nil] at hlen
      omega
    · simp [replacement]

theorem lossy_ne_nil (h : s ≠ []) : lossy s ≠ [] := lossyFrom_ne_nil le_rfl h

/-- What is decoded holds no byte but those of the string and of U+FFFD. -/
theorem notMem_lossyFrom (hb : b ∉ replacement) (n : Nat) (h : b ∉ s) : b ∉ lossyFrom n s := by
  induction n generalizing s with
  | zero => simp [lossyFrom]
  | succ n ih =>
    cases s with
    | nil => simp [lossyFrom]
    | cons b₀ rest =>
      rw [lossyFrom_succ n (List.cons_ne_nil _ _), List.mem_append, not_or]
      refine ⟨?_, ih fun hmem ↦ h (List.mem_of_mem_drop hmem)⟩
      split
      · exact fun hmem ↦ h (List.mem_of_mem_take hmem)
      · exact hb

theorem notMem_lossy (hb : b ∉ replacement) (h : b ∉ s) : b ∉ lossy s := notMem_lossyFrom hb _ h

/-- A well-formed string decodes to itself. -/
theorem lossy_of_valid (h : valid s) : lossy s = s := by
  have hfrom : ∀ (n : Nat) (s : List UInt8), validFrom n s → lossyFrom n s = s := by
    intro n
    induction n with
    | zero =>
      intro s hs
      rw [validFrom, List.isEmpty_iff] at hs
      rw [hs, lossyFrom]
    | succ n ih =>
      intro s hs
      cases s with
      | nil => rfl
      | cons b₀ rest =>
        have hne := List.cons_ne_nil b₀ rest
        rw [validFrom, Bool.and_eq_true] at hs
        · rw [lossyFrom_succ n hne, if_pos hs.1, ih _ hs.2, List.take_append_drop]
        · exact hne
  exact hfrom _ _ h

/-- A chunk that starts as U+FFFD does is well-formed. -/
theorem firstChunk_replacement (s : List UInt8) : firstChunk (replacement ++ s) = (3, true) := by
  rfl

/-- Only a well-formed string decodes to itself. -/
theorem valid_of_lossy (h : lossy s = s) : valid s := by
  have hfrom : ∀ (n : Nat) (s : List UInt8), s.length ≤ n → lossyFrom n s = s → validFrom n s := by
    intro n
    induction n with
    | zero =>
      intro s hn _
      rw [validFrom, List.isEmpty_iff]
      exact List.eq_nil_of_length_eq_zero (Nat.le_zero.mp hn)
    | succ n ih =>
      intro s hn hs
      cases s with
      | nil => rfl
      | cons b₀ rest =>
        have hne := List.cons_ne_nil b₀ rest
        have hpos := firstChunk_pos hne
        have hdrop : ((b₀ :: rest).drop (firstChunk (b₀ :: rest)).1).length ≤ n := by
          rw [List.length_drop]
          omega
        rw [lossyFrom_succ n hne] at hs
        rw [validFrom, Bool.and_eq_true]
        · cases hchunk : (firstChunk (b₀ :: rest)).2 with
          | true =>
            rw [hchunk, if_pos rfl] at hs
            refine ⟨rfl, ih _ hdrop ?_⟩
            conv_rhs at hs => rw [← List.take_append_drop (firstChunk (b₀ :: rest)).1 (b₀ :: rest)]
            exact List.append_cancel_left hs
          | false =>
            -- the string would start with U+FFFD, which is well-formed
            rw [hchunk, if_neg Bool.false_ne_true] at hs
            rw [← hs, firstChunk_replacement] at hchunk
            cases hchunk
        · exact hne
  exact hfrom _ _ le_rfl h

/-! ## Putting strings together -/

/-- A first character does not depend on what follows it. -/
theorem firstChunk_append (h : (firstChunk s).2) (hne : s ≠ []) (t : List UInt8) :
    firstChunk (s ++ t) = firstChunk s ∧ (firstChunk s).1 ≤ s.length := by
  obtain ⟨b₀, rest, rfl⟩ := List.exists_cons_of_ne_nil hne
  rcases rest with _ | ⟨b₁, _ | ⟨b₂, _ | ⟨b₃, rest⟩⟩⟩
  all_goals
    rw [firstChunk] at h
    repeat' split at h
    all_goals simp_all [firstChunk]

theorem validFrom_succ (n : Nat) (h : s ≠ []) : validFrom (n + 1) s =
    ((firstChunk s).2 && validFrom n (s.drop (firstChunk s).1)) := by
  cases s
  · exact absurd rfl h
  · rfl

theorem validFrom_mono {n m : Nat} (h : validFrom n s) (hle : n ≤ m) : validFrom m s := by
  induction n generalizing s m with
  | zero =>
    rw [validFrom, List.isEmpty_iff] at h
    rw [h]
    cases m <;> rfl
  | succ n ih =>
    obtain ⟨m, rfl⟩ : ∃ k, m = k + 1 := ⟨m - 1, by omega⟩
    rcases eq_or_ne s [] with rfl | hne
    · rfl
    · rw [validFrom_succ n hne, Bool.and_eq_true] at h
      rw [validFrom_succ m hne, h.1, ih h.2 (by omega)]
      rfl

theorem validFrom_append {n m : Nat} {t : List UInt8} (hs : validFrom n s) (ht : validFrom m t) :
    validFrom (n + m) (s ++ t) := by
  induction n generalizing s with
  | zero =>
    rw [validFrom, List.isEmpty_iff] at hs
    rw [hs, List.nil_append, Nat.zero_add]
    exact ht
  | succ n ih =>
    rcases eq_or_ne s [] with rfl | hne
    · exact validFrom_mono ht (by omega)
    · rw [validFrom_succ n hne, Bool.and_eq_true] at hs
      obtain ⟨hchunk, hle⟩ := firstChunk_append hs.1 hne t
      rw [Nat.add_right_comm, validFrom_succ _ (List.append_ne_nil_of_left_ne_nil hne t), hchunk,
        hs.1, List.drop_append_of_le_length hle, ih hs.2]
      rfl

/-- Well-formed strings can be put together. -/
theorem valid_append {t : List UInt8} (hs : valid s) (ht : valid t) : valid (s ++ t) := by
  rw [valid, List.length_append]
  exact validFrom_append hs ht

/-- An ASCII character is well-formed. -/
theorem valid_singleton (h : b < 0x80) : valid [b] := by
  have hchunk : firstChunk [b] = (1, true) := by simp [firstChunk, width, h]
  rw [valid, List.length_singleton, validFrom_succ 0 (List.cons_ne_nil b []), hchunk]
  rfl

/-- An ASCII string is well-formed. -/
theorem valid_of_ascii (h : ∀ b ∈ s, b < 0x80) : valid s := by
  induction s with
  | nil => rfl
  | cons b s ih =>
    rw [List.forall_mem_cons] at h
    exact valid_append (valid_singleton h.1) (ih h.2)

end Lilsync.Lib.Utf8
