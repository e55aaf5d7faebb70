import Mathlib

/-!
# Separator-delimited strings

A path is a string over an alphabet `α` whose components are delimited by one
letter `sep`.  This file collects what a program that handles such strings
through `rsplit_once` and `starts_with` needs: the parent and the base of a
path, its chain of ancestors, and the relation "lies strictly below".

Nothing is assumed of the strings unless a statement says so.  In particular
`mem_ancestors_iff` describes the ancestors of an arbitrary string, with empty
components, leading separators and all.  `Proper` singles out the strings whose
components are non-empty; for these a path is determined by its parent and its
base (`eq_of_parent_base`).
-/

namespace Lilsync.Lib.SlashPath

variable {α : Type*}

/-- `Below sep a p`: the path `p` lies strictly below `a`, that is, it starts
with `a` followed by a separator. -/
def Below (sep : α) (a p : List α) : Prop := a ++ [sep] <+: p

/-! ## Lying below -/

section Below

variable {sep : α} {a b c p : List α}

theorem Below.length_lt (h : Below sep a p) : a.length < p.length := by
  have := List.IsPrefix.length_le h
  simp only [List.length_append, List.length_singleton] at this
  omega

theorem Below.ne_nil (h : Below sep a p) : p ≠ [] := by
  rintro rfl
  exact absurd h.length_lt (by simp)

/-- What starts with something below `a` lies below `a`. -/
theorem Below.of_isPrefix (hab : Below sep a b) (hbc : b <+: c) : Below sep a c :=
  List.IsPrefix.trans hab hbc

theorem Below.trans (hab : Below sep a b) (hbc : Below sep b c) : Below sep a c :=
  hab.of_isPrefix (List.IsPrefix.trans (List.prefix_append b [sep]) hbc)

theorem below_append (a b : List α) : Below sep a (a ++ sep :: b) := ⟨b, by simp⟩

/-- Nothing lies below its own descendants. -/
theorem Below.asymm (h : Below sep a b) : ¬ Below sep b a := fun h' ↦
  absurd h.length_lt (Nat.lt_asymm h'.length_lt)

theorem Below.irrefl : ¬ Below sep a a := fun h ↦ h.asymm h

/-- Two paths that a third one lies below are comparable. -/
theorem Below.comparable (ha : Below sep a p) (hb : Below sep b p) :
    a = b ∨ Below sep a b ∨ Below sep b a := by
  rcases List.prefix_or_prefix_of_prefix ha hb with h | h
  · rcases List.prefix_concat_iff.mp h with h | h
    · exact Or.inl (List.append_cancel_right h)
    · exact Or.inr (Or.inl h)
  · rcases List.prefix_concat_iff.mp h with h | h
    · exact Or.inl (List.append_cancel_right h).symm
    · exact Or.inr (Or.inr h)

end Below

/-! ## Parents, bases and ancestors -/

variable [DecidableEq α] (sep : α)

/-- Split a string at its last separator. -/
def rsplitOnce : List α → Option (List α × List α)
  | [] => none
  | c :: l =>
    match rsplitOnce l with
    | some (a, b) => some (c :: a, b)
    | none => if c = sep then some ([], l) else none

/-- What stands before the last separator, the empty string if there is none. -/
def parent (p : List α) : List α := ((rsplitOnce sep p).map Prod.fst).getD []

/-- What stands after the last separator, the whole string if there is none. -/
def base (p : List α) : List α := ((rsplitOnce sep p).map Prod.snd).getD p

/-- `current` and its iterated parents down to the empty string, at most `n`
of them after `current` itself. -/
def ancestorsFrom : Nat → List α → List (List α)
  | 0, current => [current]
  | n + 1, current =>
    current :: if current = [] then [] else ancestorsFrom n (parent sep current)

/-- The proper ancestors of a path, nearest first, ending with the empty string. -/
def ancestors (p : List α) : List (List α) := ancestorsFrom sep p.length (parent sep p)

/-- Every component of the path is non-empty.  The empty string has one empty
component, so it is not proper. -/
def Proper (p : List α) : Prop := ∀ n ∈ p.splitOn sep, n ≠ []

instance (a p : List α) : Decidable (Below sep a p) :=
  inferInstanceAs (Decidable (a ++ [sep] <+: p))

instance (p : List α) : Decidable (Proper sep p) := 
  inferInstanceAs (Decidable (∀ n ∈ p.splitOn sep, n ≠ []))

variable {sep} {a b c p q : List α}

/-! ## The last separator -/

/-- There is nothing to split exactly when the separator does not occur. -/
theorem rsplitOnce_eq_none_iff : rsplitOnce sep p = none ↔ sep ∉ p := by
  induction p with
  | nil => simp [rsplitOnce]
  | cons x l ih =>
    rw [rsplitOnce, List.mem_cons]
    cases h : rsplitOnce sep l with
    | none =>
      have hl : sep ∉ l := ih.mp h
      by_cases hx : x = sep
      · simp [hx]
      · simp [hx, hl, Ne.symm hx]
    | some ab =>
      have hl : sep ∈ l := by
        by_contra hn
        rw [ih.mpr hn] at h
        cases h
      simp [hl]

/-- The split is at the last separator. -/
theorem rsplitOnce_append (hb : sep ∉ b) : rsplitOnce sep (a ++ sep :: b) = some (a, b) := by
  induction a with
  | nil => simp [rsplitOnce, rsplitOnce_eq_none_iff.mpr hb]
  | cons x a ih => simp [rsplitOnce, ih]

/-- What a successful split returns: the two sides of the last separator. -/
theorem eq_of_rsplitOnce (h : rsplitOnce sep p = some (a, b)) :
    p = a ++ sep :: b ∧ sep ∉ b := by
  induction p generalizing a with
  | nil => simp [rsplitOnce] at h
  | cons x l ih =>
    rw [rsplitOnce] at h
    cases hl : rsplitOnce sep l with
    | none =>
      simp only [hl] at h
      split at h
      · next hx =>
        obtain ⟨rfl, rfl⟩ : [] = a ∧ l = b := by simpa using h
        exact ⟨by simp [hx], rsplitOnce_eq_none_iff.mp hl⟩
      · cases h
    | some ab =>
      obtain ⟨a', b'⟩ := ab
      simp only [hl, Option.some.injEq, Prod.mk.injEq] at h
      obtain ⟨rfl, rfl⟩ := h
      obtain ⟨hp, hb⟩ := ih hl
      exact ⟨by simp [hp], hb⟩

/-- A path either has no separator, and is its own base, or it is cut at the
last one into its parent and its base. -/
theorem parent_base_cases (sep : α) (p : List α) :
    (sep ∉ p ∧ parent sep p = [] ∧ base sep p = p) ∨
      (p = parent sep p ++ sep :: base sep p ∧ sep ∉ base sep p) := by
  cases h : rsplitOnce sep p with
  | none => exact Or.inl ⟨rsplitOnce_eq_none_iff.mp h, by simp [parent, h], by simp [base, h]⟩
  | some ab => exact Or.inr (by simpa [parent, base, h] using eq_of_rsplitOnce h)

theorem parent_append (hb : sep ∉ b) : parent sep (a ++ sep :: b) = a := by
  simp [parent, rsplitOnce_append hb]

theorem base_append (hb : sep ∉ b) : base sep (a ++ sep :: b) = b := by
  simp [base, rsplitOnce_append hb]

theorem parent_of_notMem (h : sep ∉ p) : parent sep p = [] := by
  simp [parent, rsplitOnce_eq_none_iff.mpr h]

theorem base_of_notMem (h : sep ∉ p) : base sep p = p := by
  simp [base, rsplitOnce_eq_none_iff.mpr h]

@[simp] theorem parent_nil : parent sep ([] : List α) = [] := parent_of_notMem (by simp)

theorem base_notMem (sep : α) (p : List α) : sep ∉ base sep p := by
  rcases parent_base_cases sep p with ⟨h, -, hb⟩ | ⟨-, h⟩
  · rwa [hb]
  · exact h

/-- Parents are shorter, so climbing ends. -/
theorem length_parent_lt (h : p ≠ []) : (parent sep p).length < p.length := by
  rcases parent_base_cases sep p with ⟨-, hp, -⟩ | ⟨hp, -⟩
  · simpa [hp] using List.length_pos_iff.mpr h
  · conv_rhs => rw [hp]
    simp

/-- A path lies below its parent when it has a separator, and everything it
lies below is its parent or lies above its parent. -/
theorem below_iff : Below sep a p ↔
    sep ∈ p ∧ (a = parent sep p ∨ Below sep a (parent sep p)) := by
  rcases parent_base_cases sep p with ⟨hs, -, -⟩ | ⟨hp, hb⟩
  · constructor
    · rintro ⟨t, rfl⟩
      simp at hs
    · exact fun h ↦ absurd h.1 hs
  · generalize parent sep p = u at *
    generalize base sep p = v at *
    subst hp
    constructor
    · rintro ⟨t, ht⟩
      refine ⟨by simp, ?_⟩
      rw [List.append_assoc, List.singleton_append] at ht
      rcases List.append_eq_append_iff.mp ht with ⟨w, hw, hw'⟩ | ⟨w, hw, hw'⟩
      · cases w with
        | nil => exact Or.inl (by simpa using hw.symm)
        | cons x w =>
          obtain ⟨rfl, -⟩ : sep = x ∧ _ := by simpa using hw'
          exact Or.inr (hw ▸ below_append a w)
      · cases w with
        | nil => exact Or.inl (by simpa using hw)
        | cons x w =>
          have hv : v = w ++ sep :: t := by
            have : sep :: v = x :: (w ++ sep :: t) := by simpa using hw'
            exact (List.cons.inj this).2
          exact absurd (hv ▸ by simp : sep ∈ v) hb
    · rintro ⟨-, rfl | h⟩
      · exact below_append _ _
      · exact h.trans (below_append _ _)

/-- A path with a separator lies below its parent. -/
theorem below_parent (h : sep ∈ p) : Below sep (parent sep p) p :=
  below_iff.mpr ⟨h, Or.inl rfl⟩

theorem mem_of_below (h : Below sep a p) : sep ∈ p := (below_iff.mp h).1

/-- What lies above a path, other than the path's parent, lies above the parent. -/
theorem Below.parent_of_ne (h : Below sep a p) (hne : a ≠ parent sep p) :
    Below sep a (parent sep p) := (below_iff.mp h).2.resolve_left hne

/-! ## Ancestors -/

theorem mem_ancestorsFrom_iff (n : Nat) (hn : p.length ≤ n) :
    a ∈ ancestorsFrom sep n p ↔ a = p ∨ a = [] ∨ Below sep a p := by
  induction n generalizing p with
  | zero =>
    obtain rfl : p = [] := List.length_eq_zero_iff.mp (Nat.le_zero.mp hn)
    simp only [ancestorsFrom, List.mem_singleton]
    exact ⟨Or.inl, fun h ↦ h.elim id fun h ↦ h.elim id fun h ↦ absurd rfl h.ne_nil⟩
  | succ n ih =>
    rw [ancestorsFrom, List.mem_cons]
    by_cases hp : p = []
    · subst hp
      simp only [↓reduceIte, List.not_mem_nil, or_false]
      exact ⟨Or.inl, fun h ↦ h.elim id fun h ↦ h.elim id fun h ↦ absurd rfl h.ne_nil⟩
    · have hlen : (parent sep p).length < p.length := length_parent_lt hp
      rw [if_neg hp, ih (by omega), below_iff (a := a) (p := p)]
      by_cases hs : sep ∈ p
      · simp only [hs, true_and]
        tauto
      · simp only [parent_of_notMem hs, hs, false_and]
        have : ¬ Below sep a [] := fun h ↦ h.ne_nil rfl
        tauto

/-- The ancestors of any string are the empty string and whatever the string
lies below. -/
theorem mem_ancestors_iff : a ∈ ancestors sep p ↔ a = [] ∨ Below sep a p := by
  by_cases hp : p = []
  · subst hp
    rw [ancestors, parent_nil, List.length_nil, ancestorsFrom, List.mem_singleton]
    exact ⟨Or.inl, fun h ↦ h.elim id fun h ↦ absurd rfl h.ne_nil⟩
  · have hlen : (parent sep p).length < p.length := length_parent_lt hp
    rw [ancestors, mem_ancestorsFrom_iff _ (by omega), below_iff (a := a) (p := p)]
    by_cases hs : sep ∈ p
    · simp only [hs, true_and]
      tauto
    · have : ¬ Below sep a [] := fun h ↦ h.ne_nil rfl
      simp only [parent_of_notMem hs, hs, false_and]
      tauto

theorem parent_mem_ancestors (p : List α) : parent sep p ∈ ancestors sep p := by
  rw [mem_ancestors_iff]
  by_cases h : sep ∈ p
  · exact Or.inr (below_parent h)
  · exact Or.inl (parent_of_notMem h)

theorem nil_mem_ancestors (p : List α) : [] ∈ ancestors sep p :=
  mem_ancestors_iff.mpr (Or.inl rfl)

/-- A set that holds a path's ancestors holds the ancestors of each of them. -/
theorem parent_mem_ancestors_of_mem (h : a ∈ ancestors sep p) : parent sep a ∈ ancestors sep p := by
  rw [mem_ancestors_iff] at h ⊢
  rcases h with rfl | h
  · exact Or.inl parent_nil
  · by_cases hs : sep ∈ a
    · exact Or.inr ((below_parent hs).trans h)
    · exact Or.inl (parent_of_notMem hs)

/-! ## Proper paths -/

theorem Proper.ne_nil (h : Proper sep p) : p ≠ [] := by
  rintro rfl
  exact h [] (by simp) rfl

/-- Components have no separator. -/
theorem notMem_of_mem_splitOn (h : a ∈ p.splitOn sep) : sep ∉ a := by
  induction p generalizing a with
  | nil =>
    rw [List.splitOn_nil, List.mem_singleton] at h
    rw [h]
    exact List.not_mem_nil
  | cons x p ih =>
    rw [List.splitOn_cons_eq_if_modifyHead] at h
    split at h
    · rcases List.mem_cons.mp h with rfl | h
      · exact List.not_mem_nil
      · exact ih h
    · next hx =>
      cases hs : p.splitOn sep with
      | nil => exact absurd hs (List.splitOn_ne_nil _ _)
      | cons b l =>
        rw [hs, List.modifyHead_cons] at h
        rw [hs] at ih
        rcases List.mem_cons.mp h with rfl | h
        · intro hmem
          rcases List.mem_cons.mp hmem with rfl | hmem
          · simp at hx
          · exact ih List.mem_cons_self hmem
        · exact ih (List.mem_cons_of_mem _ h)

/-- The two sides of a separator in a proper path are proper. -/
theorem proper_append_iff : Proper sep (a ++ sep :: b) ↔ Proper sep a ∧ Proper sep b := by
  simp only [Proper, List.splitOn_append_cons_self, List.mem_append]
  exact ⟨fun h ↦ ⟨fun n hn ↦ h n (Or.inl hn), fun n hn ↦ h n (Or.inr hn)⟩,
    fun h n hn ↦ hn.elim (h.1 n) (h.2 n)⟩

theorem Proper.of_below (h : Proper sep p) (ha : Below sep a p) : Proper sep a := by
  obtain ⟨t, rfl⟩ := ha
  rw [List.append_assoc, List.singleton_append] at h
  exact (proper_append_iff.mp h).1

theorem proper_of_notMem (hs : sep ∉ p) (hp : p ≠ []) : Proper sep p := by
  rw [Proper, List.splitOn_eq_singleton hs]
  simpa using hp

/-- What holds of single components and passes from a parent to its children holds of every
proper path. -/
theorem Proper.parent_induction {motive : ∀ p, Proper sep p → Prop}
    (one : ∀ p (hp : Proper sep p), sep ∉ p → motive p hp)
    (child : ∀ p (hp : Proper sep p) (hs : sep ∈ p),
      motive (parent sep p) (hp.of_below (below_parent hs)) → motive p hp) :
    ∀ p (hp : Proper sep p), motive p hp := by
  intro p hp
  induction hn : p.length using Nat.strong_induction_on generalizing p with
  | _ n ih =>
    by_cases hs : sep ∈ p
    · exact child p hp hs (ih _ (hn ▸ length_parent_lt hp.ne_nil) _ _ rfl)
    · exact one p hp hs

/-- The parent of a proper path is empty exactly when the path is one component. -/
theorem Proper.parent_eq_nil_iff (h : Proper sep p) : parent sep p = [] ↔ sep ∉ p := by
  refine ⟨fun hp hs ↦ ?_, parent_of_notMem⟩
  exact (h.of_below (below_parent hs)).ne_nil hp

/-- A proper path is determined by its parent and its base. -/
theorem Proper.eq_of_parent_base (hp : Proper sep p) (hq : Proper sep q)
    (hpar : parent sep p = parent sep q) (hbase : base sep p = base sep q) : p = q := by
  rcases parent_base_cases sep p with ⟨hs, hp₀, hb⟩ | ⟨hp', -⟩
  · have hsq : sep ∉ q := by rwa [← hq.parent_eq_nil_iff, ← hpar, hp.parent_eq_nil_iff]
    rw [← hb, hbase, base_of_notMem hsq]
  · have hsp : sep ∈ p := by rw [hp']; simp
    have hsq : sep ∈ q := by
      by_contra hn
      rw [← hq.parent_eq_nil_iff, ← hpar, hp.parent_eq_nil_iff] at hn
      exact hn hsp
    rcases parent_base_cases sep q with ⟨hn, -, -⟩ | ⟨hq', -⟩
    · exact absurd hsq hn
    · rw [hp', hq', hpar, hbase]

/-- Between a path and one of its ancestors other than its parent stands a
child of that ancestor. -/
theorem exists_child_of_mem_ancestors (h : a ∈ ancestors sep p) (hne : parent sep p ≠ a) :
    ∃ c, c ≠ [] ∧ parent sep c = a ∧ Below sep c p := by
  induction hn : p.length using Nat.strong_induction_on generalizing p with
  | _ n ih =>
    rw [mem_ancestors_iff] at h
    have hq : parent sep p ≠ [] := by
      intro hq
      rcases h with rfl | h
      · exact hne hq
      · exact (h.parent_of_ne (Ne.symm hne)).ne_nil hq
    have hp : sep ∈ p := by
      by_contra hs
      exact hq (parent_of_notMem hs)
    have hmem : a ∈ ancestors sep (parent sep p) :=
      mem_ancestors_iff.mpr (h.imp id fun h ↦ h.parent_of_ne (Ne.symm hne))
    by_cases hc : parent sep (parent sep p) = a
    · exact ⟨parent sep p, hq, hc, below_parent hp⟩
    · obtain ⟨c, h₁, h₂, h₃⟩ := ih _ (hn ▸ length_parent_lt (below_parent hp).ne_nil) hmem hc rfl
      exact ⟨c, h₁, h₂, h₃.trans (below_parent hp)⟩

/-! ## The order of paths -/

section Order

variable [Ord α] [Std.ReflOrd α] {sep : α} {a b : List α}

omit [DecidableEq α] in
/-- A string does not come before one it starts with. -/
theorem compare_append_ne_lt (a b : List α) : compare (a ++ b) a ≠ .lt := by
  induction a with
  | nil => cases b <;> simp [compare, List.compareLex]
  | cons x a ih =>
    simpa [List.compare_eq_compareLex, List.compareLex_cons_cons, Std.ReflCmp.compare_self] using ih

omit [DecidableEq α] in
/-- A path comes before what lies below it. -/
theorem not_below_of_compare_lt (h : compare a b = .lt) : ¬ Below sep b a := by
  rintro ⟨rest, rfl⟩
  rw [List.append_assoc] at h
  exact compare_append_ne_lt _ _ h

end Order

end Lilsync.Lib.SlashPath
