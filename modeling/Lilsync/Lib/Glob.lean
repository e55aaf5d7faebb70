import Mathlib

/-!
# Glob languages

A glob over an alphabet with a separator is a list of pieces: a letter for itself, one
letter, a run of letters, or any word; the second and the third stop at a separator.
Its language is the product of the languages of the pieces.  A word is read from the
left: the `mem_*_mul_iff` lemmas say how a piece goes on after each letter.
-/

namespace Lilsync.Lib

/-- A piece of a glob. -/
inductive GlobPiece (α : Type) where
  /-- A letter for itself. -/
  | letter (a : α)
  /-- A letter other than the separator. -/
  | one
  /-- Any word without the separator. -/
  | run
  /-- Any word. -/
  | any
deriving DecidableEq

namespace GlobPiece

variable {α : Type} {sep a : α} {w : List α} {L : Language α}

/-- The words a piece stands for. -/
def language (sep : α) : GlobPiece α → Language α
  | .letter a => {[a]}
  | .one => {w | ∃ a, a ≠ sep ∧ w = [a]}
  | .run => {w | sep ∉ w}
  | .any => ⊤

theorem mem_letter_mul_iff :
    w ∈ (letter a).language sep * L ↔ ∃ w', w = a :: w' ∧ w' ∈ L := by
  rw [Language.mem_mul]
  constructor
  · rintro ⟨u, hu, v, hv, rfl⟩
    obtain rfl : u = [a] := hu
    exact ⟨v, rfl, hv⟩
  · rintro ⟨w', rfl, hw⟩
    exact ⟨[a], rfl, w', hw, rfl⟩

theorem mem_one_mul_iff :
    w ∈ one.language sep * L ↔ ∃ a w', w = a :: w' ∧ a ≠ sep ∧ w' ∈ L := by
  rw [Language.mem_mul]
  constructor
  · rintro ⟨_, ⟨a, ha, rfl⟩, v, hv, rfl⟩
    exact ⟨a, v, rfl, ha, hv⟩
  · rintro ⟨a, w', rfl, ha, hw⟩
    exact ⟨[a], ⟨a, ha, rfl⟩, w', hw, rfl⟩

/-- A run is over, or it takes one more letter. -/
theorem mem_run_mul_iff : w ∈ run.language sep * L ↔
    w ∈ L ∨ ∃ a w', w = a :: w' ∧ a ≠ sep ∧ w' ∈ run.language sep * L := by
  simp only [Language.mem_mul]
  constructor
  · rintro ⟨u, hu, v, hv, rfl⟩
    cases u with
    | nil => exact .inl hv
    | cons a u =>
      obtain ⟨hne, hu⟩ : sep ≠ a ∧ sep ∉ u := not_or.mp (List.mem_cons.not.mp hu)
      exact .inr ⟨a, u ++ v, rfl, hne.symm, u, hu, v, hv, rfl⟩
  · rintro (hw | ⟨a, _, rfl, hne, u, hu, v, hv, rfl⟩)
    · exact ⟨[], List.not_mem_nil, w, hw, rfl⟩
    · exact ⟨a :: u, List.mem_cons.not.mpr (not_or.mpr ⟨hne.symm, hu⟩), v, hv, rfl⟩

/-- Any word may be over, or take one more letter. -/
theorem mem_any_mul_iff : w ∈ any.language sep * L ↔
    w ∈ L ∨ ∃ a w', w = a :: w' ∧ w' ∈ any.language sep * L := by
  simp only [Language.mem_mul]
  constructor
  · rintro ⟨u, -, v, hv, rfl⟩
    cases u with
    | nil => exact .inl hv
    | cons a u => exact .inr ⟨a, u ++ v, rfl, u, trivial, v, hv, rfl⟩
  · rintro (hw | ⟨a, _, rfl, u, -, v, hv, rfl⟩)
    · exact ⟨[], trivial, w, hw, rfl⟩
    · exact ⟨a :: u, trivial, v, hv, rfl⟩

end GlobPiece

/-- The words of a glob. -/
def globLanguage {α : Type} (sep : α) (pieces : List (GlobPiece α)) : Language α :=
  (pieces.map (GlobPiece.language sep)).prod

section Language

variable {α : Type} {sep : α} {w : List α}

@[simp] theorem mem_globLanguage_nil : w ∈ globLanguage sep [] ↔ w = [] := Iff.rfl

theorem globLanguage_cons (piece : GlobPiece α) (pieces : List (GlobPiece α)) :
    globLanguage sep (piece :: pieces) = piece.language sep * globLanguage sep pieces :=
  List.prod_cons

end Language

end Lilsync.Lib
