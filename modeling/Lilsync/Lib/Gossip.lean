import Mathlib

/-!
# Registers that gossip

Each node of a group holds a register, empty or with a ranked value in it.  A
node that hears another one takes over a value of strictly greater rank and
keeps its own otherwise.  After every node has heard every other one, all hold
the same value exactly when the greatest rank was the rank of one value only
(`agree_hearAll_iff`).
-/

namespace Lilsync.Lib.Gossip

variable {ι V R : Type} [LinearOrder R] (rank : V → R)

/-- The value of greater rank; on a tie the first one. -/
def newer : Option V → Option V → Option V
  | a, none => a
  | none, some b => some b
  | some a, some b => if rank a < rank b then some b else some a

theorem newer_eq_left_or_right (a b : Option V) : newer rank a b = a ∨ newer rank a b = b := by
  match a, b with
  | none, none => exact .inl rfl
  | some _, none => exact .inl rfl
  | none, some _ => exact .inr rfl
  | some a, some b =>
    rw [newer]
    split
    · exact .inr rfl
    · exact .inl rfl

/-- A register at least as new as another one. -/
def Covers (a b : Option V) : Prop := ∀ y ∈ b, ∃ x ∈ a, rank y ≤ rank x

theorem Covers.refl (a : Option V) : Covers rank a a := fun y hy ↦ ⟨y, hy, le_rfl⟩

variable {rank}

theorem Covers.trans {a b c : Option V} (h : Covers rank a b) (h' : Covers rank b c) :
    Covers rank a c := by
  intro z hz
  obtain ⟨y, hy, hzy⟩ := h' z hz
  obtain ⟨x, hx, hyx⟩ := h y hy
  exact ⟨x, hx, hzy.trans hyx⟩

variable (rank)

theorem covers_newer_left (a b : Option V) : Covers rank (newer rank a b) a := by
  intro x hx
  match a, b with
  | some a, none => exact ⟨x, hx, le_rfl⟩
  | some a, some b =>
    obtain rfl := Option.some.inj hx
    rw [newer]
    split
    · next h => exact ⟨b, rfl, h.le⟩
    · exact ⟨a, rfl, le_rfl⟩

theorem covers_newer_right (a b : Option V) : Covers rank (newer rank a b) b := by
  intro y hy
  match a, b with
  | none, some b => exact ⟨y, hy, le_rfl⟩
  | some a, some b =>
    obtain rfl := Option.some.inj hy
    rw [newer]
    split
    · exact ⟨b, rfl, le_rfl⟩
    · next h => exact ⟨a, rfl, not_lt.mp h⟩

/-- A value that nothing outranks is kept. -/
theorem newer_eq_left {a : V} {b : Option V} (h : ∀ y ∈ b, rank y ≤ rank a) :
    newer rank (some a) b = some a := by
  cases b with
  | none => rfl
  | some b => exact if_neg (h b rfl).not_gt

/-! ## Rounds -/

variable [DecidableEq ι]

/-- Node `i` hears node `j`. -/
def hear (s : ι → Option V) (ij : ι × ι) : ι → Option V :=
  Function.update s ij.1 (newer rank (s ij.1) (s ij.2))

/-- Nodes hear each other in turn. -/
def hearAll (s : ι → Option V) (l : List (ι × ι)) : ι → Option V := l.foldl (hear rank) s

variable {s : ι → Option V} {l : List (ι × ι)}

/-- Every value in the registers was there before. -/
theorem exists_of_hear (ij : ι × ι) (k : ι) : ∃ k', hear rank s ij k = s k' := by
  rw [hear, Function.update_apply]
  split
  · rcases newer_eq_left_or_right rank (s ij.1) (s ij.2) with h | h
    · exact ⟨ij.1, h⟩
    · exact ⟨ij.2, h⟩
  · exact ⟨k, rfl⟩

theorem covers_hear (ij : ι × ι) (k : ι) : Covers rank (hear rank s ij k) (s k) := by
  rw [hear, Function.update_apply]
  split
  · next h =>
    subst h
    exact covers_newer_left rank _ _
  · exact .refl rank _

theorem exists_of_hearAll (k : ι) : ∃ k', hearAll rank s l k = s k' := by
  induction l generalizing s with
  | nil => exact ⟨k, rfl⟩
  | cons ij l ih =>
    obtain ⟨k₁, h₁⟩ := ih (s := hear rank s ij)
    obtain ⟨k₂, h₂⟩ := exists_of_hear rank (s := s) ij k₁
    exact ⟨k₂, h₁.trans h₂⟩

theorem covers_hearAll (k : ι) : Covers rank (hearAll rank s l k) (s k) := by
  induction l generalizing s with
  | nil => exact .refl rank _
  | cons ij l ih => exact (ih (s := hear rank s ij)).trans (covers_hear rank ij k)

/-- Who has heard a node is at least as new as that node was. -/
theorem covers_hearAll_of_mem {i j : ι} (h : (i, j) ∈ l) : Covers rank (hearAll rank s l i) (s j) := by
  induction l generalizing s with
  | nil => cases h
  | cons ij l ih =>
    rcases List.mem_cons.mp h with rfl | h
    · refine (covers_hearAll rank (s := hear rank s (i, j)) i).trans ?_
      rw [hear, Function.update_self]
      exact covers_newer_right rank _ _
    · exact (ih (s := hear rank s ij) h).trans (covers_hear rank ij j)

/-- No two values share the greatest rank. -/
def UniqueTop (s : ι → Option V) : Prop :=
  ∀ i j a b, s i = some a → s j = some b → rank a = rank b →
    (∀ k c, s k = some c → rank c ≤ rank a) → a = b

/-- A value of greatest rank stays where it is. -/
theorem hearAll_eq_of_top {i : ι} {a : V} (ha : s i = some a)
    (htop : ∀ k c, s k = some c → rank c ≤ rank a) : hearAll rank s l i = some a := by
  induction l generalizing s with
  | nil => exact ha
  | cons ij l ih =>
    refine ih (s := hear rank s ij) ?_ fun k c hc ↦ ?_
    · rw [hear, Function.update_apply]
      split
      · next h =>
        subst h
        rw [ha]
        exact newer_eq_left rank fun y hy ↦ htop ij.2 y hy
      · exact ha
    · obtain ⟨k', hk'⟩ := exists_of_hear rank (s := s) ij k
      exact htop k' c (hk'.symm.trans hc)

/-- After every node has heard every other one, all agree exactly when the
greatest rank belonged to one value. -/
theorem agree_hearAll_iff (hl : ∀ i j, i ≠ j → (i, j) ∈ l) :
    (∀ i j, hearAll rank s l i = hearAll rank s l j) ↔ UniqueTop rank s := by
  have hcover : ∀ i j, Covers rank (hearAll rank s l i) (s j) := by
    intro i j
    by_cases h : i = j
    · subst h
      exact covers_hearAll rank i
    · exact covers_hearAll_of_mem rank (hl i j h)
  constructor
  · intro hagree i j a b ha hb hab htop
    have hi := hearAll_eq_of_top rank (l := l) ha htop
    have hj := hearAll_eq_of_top rank (l := l) hb fun k c hc ↦ hab ▸ htop k c hc
    exact Option.some.inj (hi.symm.trans ((hagree i j).trans hj))
  · intro huniq i j
    obtain ⟨i', hi⟩ := exists_of_hearAll rank (s := s) (l := l) i
    obtain ⟨j', hj⟩ := exists_of_hearAll rank (s := s) (l := l) j
    -- whatever a node ends with is a value of greatest rank
    have htop : ∀ i a, hearAll rank s l i = some a → ∀ k c, s k = some c → rank c ≤ rank a := by
      intro i a ha k c hc
      obtain ⟨x, hx, hle⟩ := hcover i k c hc
      exact Option.some.inj (ha.symm.trans hx) ▸ hle
    have hne : ∀ i j, hearAll rank s l i = none → hearAll rank s l j = none := by
      intro i j hnone
      obtain ⟨j', hj'⟩ := exists_of_hearAll rank (s := s) (l := l) j
      rw [hj', Option.eq_none_iff_forall_not_mem]
      intro c hc
      obtain ⟨x, hx, -⟩ := hcover i j' c hc
      rw [hnone] at hx
      cases hx
    cases ha : hearAll rank s l i with
    | none => exact (hne i j ha).symm
    | some a =>
      cases hb : hearAll rank s l j with
      | none =>
        rw [hne j i hb] at ha
        cases ha
      | some b =>
        refine congrArg some (huniq i' j' a b (hi.symm.trans ha) (hj.symm.trans hb) ?_ (htop i a ha))
        exact le_antisymm (htop j b hb i' a (hi.symm.trans ha))
          (htop i a ha j' b (hj.symm.trans hb))

end Lilsync.Lib.Gossip
