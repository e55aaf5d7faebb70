import Lilsync.Ignore
import Lilsync.Lib.Glob

/-!
# What the glob matcher accepts

A pattern is read from the left: two stars stand for any bytes, one star for any bytes
without a slash, `?` for one byte other than a slash, any other byte for itself.  The
matcher answers after as many nested calls as pattern and text have bytes, and accepts
the words of this language (`globMatchBytes_mem_iff`).
-/

namespace Lilsync

open Lilsync.Lib

/-- The pieces of a pattern. -/
def globPieces : Str → List (GlobPiece UInt8)
  | [] => []
  | 42 :: 42 :: rest => .any :: globPieces rest
  | 42 :: rest => .run :: globPieces rest
  | ch :: rest => (if ch = 63 then .one else .letter ch) :: globPieces rest

/-- The language of a pattern. -/
def patternLanguage (pattern : Str) : Language UInt8 := globLanguage slash (globPieces pattern)

/-- `glob_match_bytes`, branch by branch; no answer if that takes more nested calls than
given. -/
def globMatchBytes : Nat → Str → Str → Option Bool
  | 0, _, _ => none
  | _ + 1, [], text => some text.isEmpty
  | calls + 1, pattern@(ch :: rest), text =>
    if (lit "**").isPrefixOf pattern then do
      if ← globMatchBytes calls (pattern.drop 2) text then pure true
      else match text with
        | [] => pure false
        | _ :: text => globMatchBytes calls pattern text
    else if ch = 42 then do
      if ← globMatchBytes calls rest text then pure true
      else match text with
        | [] => pure false
        | t :: text => if t ≠ slash then globMatchBytes calls pattern text else pure false
    else match text with
      | [] => pure false
      | t :: text =>
        if ch = 63 then if t ≠ slash then globMatchBytes calls rest text else pure false
        else if ch = t then globMatchBytes calls rest text else pure false

section Glob

variable {pattern text rest : Str} {ch t : UInt8}

/-! ## The matcher answers -/

theorem isPrefixOf_starStar (ch : UInt8) (rest : Str) :
    (lit "**").isPrefixOf (ch :: rest) = (42 == ch && [42].isPrefixOf rest) := by
  have hlit : lit "**" = [42, 42] := by decide
  rw [hlit]
  rfl

theorem isPrefixOf_star (h : ∀ rest', rest ≠ 42 :: rest') : [42].isPrefixOf rest = false := by
  cases rest with
  | nil => rfl
  | cons ch rest =>
    have hch : (42 == ch) = false := beq_false_of_ne fun heq ↦ h rest (by rw [← heq])
    rw [List.isPrefixOf, hch, Bool.false_and]

/-- Two stars. -/
theorem globMatchBytes_any (calls : Nat) (rest text : Str) :
    globMatchBytes (calls + 1) (42 :: 42 :: rest) text =
      (globMatchBytes calls rest text).bind fun matched ↦ if matched then some true else
        match text with
        | [] => some false
        | _ :: text => globMatchBytes calls (42 :: 42 :: rest) text := by
  rw [globMatchBytes.eq_def]
  dsimp only
  rw [isPrefixOf_starStar]
  rfl

/-- One star. -/
theorem globMatchBytes_run (h : ∀ rest', rest ≠ 42 :: rest') (calls : Nat) (text : Str) :
    globMatchBytes (calls + 1) (42 :: rest) text =
      (globMatchBytes calls rest text).bind fun matched ↦ if matched then some true else
        match text with
        | [] => some false
        | t :: text =>
          if t ≠ slash then globMatchBytes calls (42 :: rest) text else some false := by
  rw [globMatchBytes.eq_def]
  dsimp only
  rw [isPrefixOf_starStar, isPrefixOf_star h]
  rfl

/-- Any other byte. -/
theorem globMatchBytes_byte (h : ch ≠ 42) (calls : Nat) (rest text : Str) :
    globMatchBytes (calls + 1) (ch :: rest) text =
      match text with
      | [] => some false
      | t :: text =>
        if ch = 63 then if t ≠ slash then globMatchBytes calls rest text else some false
        else if ch = t then globMatchBytes calls rest text else some false := by
  have hch : (42 == ch) = false := beq_false_of_ne h.symm
  rw [globMatchBytes.eq_def]
  dsimp only
  rw [isPrefixOf_starStar, hch, Bool.false_and, if_neg Bool.false_ne_true, if_neg h]
  rfl

/-- Enough calls give the answer of `globMatch`. -/
theorem globMatchBytes_eq (pattern text : Str) (calls : Nat)
    (h : pattern.length + text.length < calls) :
    globMatchBytes calls pattern text = some (globMatch pattern text) := by
  fun_induction globMatch pattern text generalizing calls <;>
    obtain ⟨calls, rfl⟩ := Nat.exists_eq_succ_of_ne_zero (Nat.ne_of_gt (Nat.zero_lt_of_lt h)) <;>
    simp only [List.length_cons, List.length_nil] at h
  case case1 text => rfl
  case case2 rest ih =>
    rw [globMatchBytes_any, ih calls (by simp only [List.length_nil]; omega)]
    cases globMatch rest [] <;> rfl
  case case3 rest t text ih ih' =>
    rw [globMatchBytes_any, ih calls (by simp only [List.length_cons]; omega)]
    cases globMatch rest (t :: text) with
    | true => rfl
    | false => exact ih' calls (by simp only [List.length_cons]; omega)
  case case4 rest hrest ih =>
    rw [globMatchBytes_run hrest, ih calls (by simp only [List.length_nil]; omega)]
    cases globMatch rest [] <;> rfl
  case case5 rest t text hrest ih ih' =>
    rw [globMatchBytes_run hrest, ih calls (by simp only [List.length_cons]; omega)]
    cases globMatch rest (t :: text) with
    | true => rfl
    | false =>
      dsimp only [Option.bind]
      by_cases ht : t = slash
      · simp [ht]
      · simp [ht, ih' calls (by simp only [List.length_cons]; omega)]
  case case6 ch rest _ hch => rw [globMatchBytes_byte hch]
  case case7 rest t text _ hch ih =>
    rw [globMatchBytes_byte hch]
    dsimp only
    by_cases ht : t = slash
    · simp [ht]
    · simp [ht, ih calls (by omega)]
  case case8 ch rest t text _ hch hone ih =>
    rw [globMatchBytes_byte hch]
    dsimp only
    rw [if_neg hone]
    by_cases ht : ch = t
    · simp [ht, ih calls (by omega)]
    · simp [ht]

/-! ## The language -/

theorem globPieces_run (h : ∀ rest', rest ≠ 42 :: rest') :
    globPieces (42 :: rest) = .run :: globPieces rest := by
  rw [globPieces]
  exact fun rest' heq ↦ h rest' heq

theorem globPieces_byte (h : ch ≠ 42) :
    globPieces (ch :: rest) = (if ch = 63 then .one else .letter ch) :: globPieces rest := by
  rw [globPieces]
  · exact fun rest' heq _ ↦ h heq
  · exact h

/-- The matcher accepts the language of the pattern. -/
theorem globMatch_iff (pattern text : Str) :
    globMatch pattern text = true ↔ text ∈ patternLanguage pattern := by
  rw [patternLanguage]
  fun_induction globMatch pattern text with
  | case1 text => rw [List.isEmpty_iff, globPieces, mem_globLanguage_nil]
  | case2 rest ih =>
    rw [ih, globPieces, globLanguage_cons, GlobPiece.mem_any_mul_iff]
    simp
  | case3 rest t text ih ih' =>
    rw [Bool.or_eq_true, ih, ih', globPieces, globLanguage_cons]
    exact (GlobPiece.mem_any_mul_iff.trans (by simp)).symm
  | case4 rest hrest ih =>
    rw [ih, globPieces_run hrest, globLanguage_cons, GlobPiece.mem_run_mul_iff]
    simp
  | case5 rest t text hrest ih ih' =>
    rw [Bool.or_eq_true, Bool.and_eq_true, bne_iff_ne, ih, ih', globPieces_run hrest,
      globLanguage_cons]
    exact (GlobPiece.mem_run_mul_iff.trans (by simp)).symm
  | case6 ch rest _ hch =>
    rw [globPieces_byte hch, globLanguage_cons]
    split
    · rw [GlobPiece.mem_one_mul_iff]
      simp
    · rw [GlobPiece.mem_letter_mul_iff]
      simp
  | case7 rest t text _ hch ih =>
    rw [Bool.and_eq_true, bne_iff_ne, ih, globPieces_byte hch, if_pos rfl, globLanguage_cons,
      GlobPiece.mem_one_mul_iff]
    simp
  | case8 ch rest t text _ hch hone ih =>
    rw [Bool.and_eq_true, beq_iff_eq, ih, globPieces_byte hch, if_neg hone, globLanguage_cons,
      GlobPiece.mem_letter_mul_iff]
    simp [eq_comm]

/-- The matcher answers on every pattern and text, and says whether the text is in the
language of the pattern. -/
theorem globMatchBytes_mem_iff (pattern text : Str) : ∃ matched,
    (∀ more, globMatchBytes (pattern.length + text.length + 1 + more) pattern text = some matched) ∧
      (matched = true ↔ text ∈ patternLanguage pattern) :=
  ⟨globMatch pattern text, fun _ ↦ globMatchBytes_eq pattern text _ (by omega),
    globMatch_iff pattern text⟩

end Glob

end Lilsync
