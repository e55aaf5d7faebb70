import Lilsync.Lib.Gossip

/-!
# Registers that keep the newest value

Each key has a register, empty or with a ranked value in it, and there is a
clock.  A value that is put in takes the place of what has a smaller rank there,
and moves the clock if it does.  What the registers and the clock are in the end
depends on the values that were put in, not on their order or on how often
(`putAll_eq`).
-/

namespace Lilsync.Lib

open Gossip (Covers)

/-- Registers and a clock. -/
@[ext]
structure Registers (ι V C : Type) where
  values : ι → Option V
  clock : C

namespace Registers

variable {ι V R C : Type} [DecidableEq ι] [LinearOrder R] [LinearOrder C]
  (key : V → ι) (rank : V → R) (time : V → C)

/-- Put a value in, if it is newer than what is there. -/
def put (s : Registers ι V C) (x : V) : Registers ι V C :=
  if ∀ y ∈ s.values (key x), rank y < rank x then
    ⟨Function.update s.values (key x) (some x), max s.clock (time x)⟩
  else s

/-- Put values in, one after the other. -/
def putAll (s : Registers ι V C) (l : List V) : Registers ι V C := l.foldl (put key rank time) s

variable {key rank time} {s s' : Registers ι V C} {l l' : List V} {x : V} {k : ι}

theorem put_of_newer (h : ∀ y ∈ s.values (key x), rank y < rank x) :
    s.put key rank time x =
      ⟨Function.update s.values (key x) (some x), max s.clock (time x)⟩ := if_pos h

theorem put_of_not_newer (h : ¬ ∀ y ∈ s.values (key x), rank y < rank x) :
    s.put key rank time x = s := if_neg h

theorem values_put_self (h : ∀ y ∈ s.values (key x), rank y < rank x) :
    (s.put key rank time x).values (key x) = some x := by
  rw [put_of_newer h]
  exact Function.update_self _ _ _

theorem values_put_of_ne (h : k ≠ key x) : (s.put key rank time x).values k = s.values k := by
  rw [put]
  split
  · exact Function.update_of_ne h _ _
  · rfl

theorem clock_put (h : ∀ y ∈ s.values (key x), rank y < rank x) :
    (s.put key rank time x).clock = max s.clock (time x) := by
  rw [put_of_newer h]

/-! ## The registers -/

/-- The register holds what it held before, or a newer one of the values, and it holds
something at least as new as each of them. -/
structure Newest (key : V → ι) (rank : V → R) (s : Registers ι V C) (l : List V) (k : ι)
    (o : Option V) : Prop where
  mem : ∀ x ∈ o, s.values k = some x ∨
    x ∈ l ∧ key x = k ∧ ∀ y ∈ s.values k, rank y < rank x
  covers_old : Covers rank o (s.values k)
  covers_new : ∀ x ∈ l, key x = k → Covers rank o (some x)

theorem newest_put (x : V) (k : ι) : Newest key rank s [x] k ((s.put key rank time x).values k) := by
  by_cases hk : k = key x
  · subst hk
    by_cases hnew : ∀ y ∈ s.values (key x), rank y < rank x
    · rw [values_put_self hnew]
      refine ⟨?_, fun y hy ↦ ⟨x, rfl, (hnew y hy).le⟩, ?_⟩
      · rintro _ ⟨⟩
        exact .inr ⟨List.mem_singleton_self x, rfl, hnew⟩
      · intro y hy _
        rw [List.mem_singleton.mp hy]
        exact Covers.refl rank _
    · rw [put_of_not_newer hnew]
      refine ⟨fun y hy ↦ .inl hy, Covers.refl rank _, fun y hy _ ↦ ?_⟩
      rw [List.mem_singleton.mp hy]
      push Not at hnew
      obtain ⟨z, hz, hle⟩ := hnew
      rintro _ ⟨⟩
      exact ⟨z, hz, hle⟩
  · rw [values_put_of_ne hk]
    refine ⟨fun y hy ↦ .inl hy, Covers.refl rank _, fun y hy heq ↦ ?_⟩
    rw [List.mem_singleton.mp hy] at heq
    exact absurd heq.symm hk

omit [DecidableEq ι] [LinearOrder C] in
theorem Newest.cons {o : Option V} (h : Newest key rank s [x] k (s'.values k))
    (h' : Newest key rank s' l k o) : Newest key rank s (x :: l) k o where
  mem y hy := by
    rcases h'.mem y hy with hy' | ⟨hmem, hkey, hnew⟩
    · exact (h.mem y hy').imp id fun ⟨hx, hrest⟩ ↦
        ⟨List.mem_singleton.mp hx ▸ List.mem_cons_self, hrest⟩
    · refine .inr ⟨List.mem_cons_of_mem x hmem, hkey, fun z hz ↦ ?_⟩
      obtain ⟨z', hz', hle⟩ := h.covers_old z hz
      exact hle.trans_lt (hnew z' hz')
  covers_old := h'.covers_old.trans h.covers_old
  covers_new y hy hkey := by
    rcases List.mem_cons.mp hy with rfl | hy
    · exact h'.covers_old.trans (h.covers_new y (List.mem_singleton_self y) hkey)
    · exact h'.covers_new y hy hkey

theorem putAll_append (s : Registers ι V C) (l l' : List V) :
    s.putAll key rank time (l ++ l') = (s.putAll key rank time l).putAll key rank time l' :=
  List.foldl_append

variable (key rank time) in
/-- What a register holds after values have been put in. -/
theorem newest_putAll (l : List V) (s : Registers ι V C) (k : ι) :
    Newest key rank s l k ((s.putAll key rank time l).values k) := by
  induction l generalizing s with
  | nil =>
    exact ⟨fun x hx ↦ .inl hx, Covers.refl rank _, fun x hx ↦ absurd hx List.not_mem_nil⟩
  | cons x l ih => exact (newest_put x k).cons (ih (s.put key rank time x))

omit [DecidableEq ι] [LinearOrder C] in
/-- The newest value is the only one, if the values of a key have different ranks. -/
theorem Newest.eq {o o' : Option V} (h : Newest key rank s l k o) (h' : Newest key rank s l' k o')
    (hsame : ∀ x, x ∈ l ↔ x ∈ l')
    (hrank : ∀ x ∈ l, ∀ y ∈ l, key x = key y → rank x = rank y → x = y) : o = o' := by
  -- each side covers what the other one holds
  have hcovers : Covers rank o' o := by
    intro x hx
    rcases h.mem x hx with hold | ⟨hmem, hkey, -⟩
    · exact h'.covers_old x hold
    · exact h'.covers_new x ((hsame x).mp hmem) hkey x rfl
  have hcovers' : Covers rank o o' := by
    intro x hx
    rcases h'.mem x hx with hold | ⟨hmem, hkey, -⟩
    · exact h.covers_old x hold
    · exact h.covers_new x ((hsame x).mpr hmem) hkey x rfl
  cases ho : o with
  | none =>
    cases ho' : o' with
    | none => rfl
    | some y =>
      obtain ⟨x, hx, -⟩ := hcovers' y ho'
      rw [ho] at hx
      cases hx
  | some x =>
    obtain ⟨y, hy, hxy⟩ := hcovers x ho
    obtain ⟨x', hx', hyx⟩ := hcovers' y hy
    obtain rfl := Option.some.inj (ho.symm.trans hx')
    have heq : rank x = rank y := le_antisymm hxy hyx
    rw [show o' = some y from hy]
    congr 1
    rcases h.mem x ho with hold | ⟨hmem, hkey, hnew⟩ <;>
      rcases h'.mem y hy with hold' | ⟨hmem', hkey', hnew'⟩
    · exact Option.some.inj (hold.symm.trans hold')
    · exact absurd heq (hnew' x hold).ne
    · exact absurd heq.symm (hnew y hold').ne
    · exact hrank x hmem y ((hsame y).mpr hmem') (hkey.trans hkey'.symm) heq

/-! ## The clock -/

/-- The clock is what it was or the time of a new value, and not before either. -/
structure Ticked (time : V → C) (s s' : Registers ι V C) : Prop where
  le : s.clock ≤ s'.clock
  new_le : ∀ k x, s'.values k = some x → s.values k = some x ∨ time x ≤ s'.clock
  eq_or_new : s'.clock = s.clock ∨
    ∃ k x, s'.values k = some x ∧ s.values k ≠ some x ∧ s'.clock ≤ time x

omit [DecidableEq ι] in
theorem ticked_refl (s : Registers ι V C) : Ticked time s s :=
  ⟨le_rfl, fun _ _ ↦ .inl, .inl rfl⟩

/-- Putting in one more value. -/
theorem Ticked.put (h : Ticked time s s') (hcovers : ∀ k, Covers rank (s'.values k) (s.values k))
    (htime : ∀ x y, rank x ≤ rank y → time x ≤ time y) (x : V) :
    Ticked time s (s'.put key rank time x) := by
  by_cases hnew : ∀ y ∈ s'.values (key x), rank y < rank x
  · have hx : (s'.put key rank time x).values (key x) = some x := values_put_self hnew
    have hxold : s.values (key x) ≠ some x := by
      intro hold
      obtain ⟨y, hy, hxy⟩ := hcovers (key x) x hold
      exact absurd (hnew y hy) hxy.not_gt
    constructor <;> rw [clock_put hnew]
    · exact h.le.trans (le_max_left _ _)
    · intro k y hy
      by_cases hk : k = key x
      · subst hk
        obtain rfl := Option.some.inj (hx.symm.trans hy)
        exact .inr (le_max_right _ _)
      · rw [values_put_of_ne hk] at hy
        exact (h.new_le k y hy).imp id fun hle ↦ hle.trans (le_max_left _ _)
    · rcases le_total s'.clock (time x) with hle | hle
      · exact .inr ⟨key x, x, hx, hxold, max_le hle le_rfl⟩
      · rcases h.eq_or_new with heq | ⟨k, y, hy, hold, hclock⟩
        · exact .inl ((max_eq_left hle).trans heq)
        · -- the clock is the time of a value that is still there, or of one that `x` replaces
          by_cases hk : k = key x
          · subst hk
            exact .inr ⟨key x, x, hx, hxold,
              max_le (hclock.trans (htime y x (hnew y hy).le)) le_rfl⟩
          · exact .inr ⟨k, y, (values_put_of_ne hk).trans hy, hold,
              max_le hclock (hle.trans hclock)⟩
  · rw [put_of_not_newer hnew]
    exact h

variable (key) in
theorem ticked_putAll (htime : ∀ x y, rank x ≤ rank y → time x ≤ time y) (l : List V)
    (s : Registers ι V C) : Ticked time s (s.putAll key rank time l) := by
  induction l using List.reverseRecOn with
  | nil => exact ticked_refl s
  | append_singleton l x ih =>
    rw [putAll_append]
    exact ih.put (fun k ↦ (newest_putAll key rank time l s k).covers_old) htime x

omit [DecidableEq ι] in
theorem Ticked.clock_le {s₁ s₂ : Registers ι V C} (h : Ticked time s s₁) (h' : Ticked time s s₂)
    (heq : s₁.values = s₂.values) : s₁.clock ≤ s₂.clock := by
  rcases h.eq_or_new with hclock | ⟨k, x, hx, hold, hle⟩
  · exact hclock.le.trans h'.le
  · rw [heq] at hx
    exact hle.trans ((h'.new_le k x hx).resolve_left hold)

/-- The order of the values and how often each is put in do not matter. -/
theorem putAll_eq (htime : ∀ x y, rank x ≤ rank y → time x ≤ time y)
    (hsame : ∀ x, x ∈ l ↔ x ∈ l')
    (hrank : ∀ x ∈ l, ∀ y ∈ l, key x = key y → rank x = rank y → x = y) :
    s.putAll key rank time l = s.putAll key rank time l' := by
  have hvalues : (s.putAll key rank time l).values = (s.putAll key rank time l').values :=
    funext fun k ↦
      (newest_putAll key rank time l s k).eq (newest_putAll key rank time l' s k) hsame hrank
  have hticked := ticked_putAll key htime l s
  have hticked' := ticked_putAll key htime l' s
  exact Registers.ext hvalues
    (le_antisymm (hticked.clock_le hticked' hvalues) (hticked'.clock_le hticked hvalues.symm))

end Registers

end Lilsync.Lib
