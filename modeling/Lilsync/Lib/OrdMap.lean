import Mathlib

/-!
# Ordered maps built by loops

The core library's `ExtTreeMap` is the ordered map of this development.  A
program fills such maps by loops: it collects an iterator of pairs, it pushes
values under computed keys, it revises the map bottom-up, one key after the
other.  This file says what the finished map holds.

The last section is the induction rule of a *bottom-up pass*: the keys are
visited in descending order and the value put at a key is computed from what
the map holds at greater keys.  Whatever the map held before, the result is a
fixed point of the computation on the visited keys and unchanged elsewhere.
-/

namespace Lilsync.Lib

open Std

/-- An ordered map with the keys' own comparison. -/
abbrev BTreeMap (K V : Type) [Ord K] := ExtTreeMap K V

/-- An ordered set with the elements' own comparison. -/
abbrev BTreeSet (K : Type) [Ord K] := ExtTreeSet K

namespace OrdMap

variable {K V : Type} [Ord K] [TransOrd K] [LawfulEqOrd K] [DecidableEq K]

/-! ## Collecting pairs -/

theorem getElem?_insert_eq (m : BTreeMap K V) (k j : K) (v : V) :
    (m.insert k v)[j]? = if k = j then some v else m[j]? := by
  rw [ExtTreeMap.getElem?_insert]
  simp

theorem getElem?_erase_eq (m : BTreeMap K V) (k j : K) :
    (m.erase k)[j]? = if k = j then none else m[j]? := by
  rw [ExtTreeMap.getElem?_erase]
  simp

omit [DecidableEq K] in
theorem mem_insert_iff {s : BTreeSet K} {a k : K} : k ∈ s.insert a ↔ k = a ∨ k ∈ s := by
  rw [ExtTreeSet.mem_insert, Std.compare_eq_iff_eq, eq_comm]

omit [DecidableEq K] in
theorem mem_foldl_insert {s : BTreeSet K} {l : List K} {k : K} :
    k ∈ l.foldl (fun s a ↦ s.insert a) s ↔ k ∈ s ∨ k ∈ l := by
  induction l generalizing s with
  | nil => simp
  | cons a l ih =>
    rw [List.foldl_cons, ih, mem_insert_iff, List.mem_cons]
    tauto

/-- A list of pairs in which a key determines the value. -/
def Functional (l : List (K × V)) : Prop :=
  ∀ k v w, (k, v) ∈ l → (k, w) ∈ l → v = w

/-- Collecting a list of pairs in which a key determines the value gives the
map whose graph is the list. -/
theorem getElem?_foldl_insert_iff {l : List (K × V)} {m : BTreeMap K V} (hl : Functional l)
    (hm : ∀ (k : K) (v w : V), m[k]? = some v → (k, w) ∈ l → v = w) {k : K} {v : V} :
    (l.foldl (fun m kv ↦ m.insert kv.1 kv.2) m)[k]? = some v ↔ m[k]? = some v ∨ (k, v) ∈ l := by
  induction l generalizing m with
  | nil => simp
  | cons kv l ih =>
    obtain ⟨j, u⟩ := kv
    have hl' : Functional l := fun k v w hv hw ↦
      hl k v w (List.mem_cons_of_mem _ hv) (List.mem_cons_of_mem _ hw)
    have hju : ∀ w, (j, w) ∈ l → u = w := fun w hw ↦
      hl j u w List.mem_cons_self (List.mem_cons_of_mem _ hw)
    rw [List.foldl_cons, ih hl']
    · rw [getElem?_insert_eq, List.mem_cons, Prod.mk.injEq]
      by_cases hk : j = k
      · subst hk
        simp only [↓reduceIte, Option.some.injEq, true_and]
        constructor
        · rintro (rfl | h)
          · exact Or.inr (Or.inl rfl)
          · exact Or.inr (Or.inr h)
        · rintro (h | rfl | h)
          · exact Or.inl (hm j v u h List.mem_cons_self).symm
          · exact Or.inl rfl
          · exact Or.inr h
      · simp [hk, Ne.symm hk]
    · intro k v w hv hw
      rw [getElem?_insert_eq] at hv
      split at hv
      · next h =>
        subst h
        exact (Option.some.inj hv) ▸ hju w hw
      · exact hm k v w hv (List.mem_cons_of_mem _ hw)

theorem getElem?_ofList_iff {l : List (K × V)} (hl : Functional l) {k : K} {v : V} :
    (ExtTreeMap.ofList l : BTreeMap K V)[k]? = some v ↔ (k, v) ∈ l := by
  rw [ExtTreeMap.ofList_eq_foldl, getElem?_foldl_insert_iff hl (by simp)]
  simp

/-- Collecting the pairs of a map with new values. -/
theorem getElem?_ofList_map_toList {V' : Type} (m : BTreeMap K V) (f : V → V') (k : K) :
    (ExtTreeMap.ofList (m.toList.map fun kv ↦ (kv.1, f kv.2)) : BTreeMap K V')[k]? =
      m[k]?.map f := by
  have hmem : ∀ (j : K) (w : V'), (j, w) ∈ m.toList.map (fun kv ↦ (kv.1, f kv.2)) ↔
      m[j]?.map f = some w := by
    intro j w
    rw [List.mem_map, Option.map_eq_some_iff]
    constructor
    · rintro ⟨⟨i, v⟩, hv, heq⟩
      obtain ⟨rfl, rfl⟩ := Prod.mk.inj heq
      exact ⟨v, ExtTreeMap.mem_toList_iff_getElem?_eq_some.mp hv, rfl⟩
    · rintro ⟨v, hv, rfl⟩
      exact ⟨(j, v), ExtTreeMap.mem_toList_iff_getElem?_eq_some.mpr hv, rfl⟩
  refine Option.ext fun w ↦ ?_
  rw [getElem?_ofList_iff, hmem]
  intro j u w hu hw
  rw [hmem] at hu hw
  exact Option.some.inj (hu.symm.trans hw)

theorem mem_of_getElem?_foldl_insert {l : List (K × V)} {m : BTreeMap K V} {k : K} {v : V}
    (h : (l.foldl (fun m kv ↦ m.insert kv.1 kv.2) m)[k]? = some v) :
    m[k]? = some v ∨ (k, v) ∈ l := by
  induction l generalizing m with
  | nil => exact .inl h
  | cons kv l ih =>
    rcases ih h with hm | hl
    · rw [getElem?_insert_eq] at hm
      split at hm
      · next hk => exact .inr (by simp [← hk, ← Option.some.inj hm])
      · exact .inl hm
    · exact .inr (List.mem_cons_of_mem _ hl)

/-- What a collected map holds comes from the list. -/
theorem mem_of_getElem?_ofList {l : List (K × V)} {k : K} {v : V}
    (h : (ExtTreeMap.ofList l : BTreeMap K V)[k]? = some v) : (k, v) ∈ l := by
  rw [ExtTreeMap.ofList_eq_foldl] at h
  exact (mem_of_getElem?_foldl_insert h).resolve_left (by simp)

omit [DecidableEq K] in
/-- Two maps with the same graph are equal. -/
theorem ext_graph {m m' : BTreeMap K V}
    (h : ∀ (k : K) (v : V), m[k]? = some v ↔ m'[k]? = some v) : m = m' := by
  refine ExtTreeMap.ext_getElem? fun k ↦ ?_
  exact Option.ext fun v ↦ by simpa using h k v

/-- The values of a map in the order of their keys. -/
def values (m : BTreeMap K V) : List V := m.toList.map Prod.snd

omit [DecidableEq K] in
theorem mem_values_iff {m : BTreeMap K V} {v : V} :
    v ∈ values m ↔ ∃ k : K, m[k]? = some v := by
  simp [values, ExtTreeMap.mem_toList_iff_getElem?_eq_some]

/-! ## Pushing under computed keys -/

/-- Push each element of a list under its key, as `entry(key).or_default().push`
does in a loop. -/
def pushUnder (key : V → K) (m : BTreeMap K (List V)) (l : List V) : BTreeMap K (List V) :=
  l.foldl (fun m v ↦ m.alter (key v) fun vs ↦ some (vs.getD [] ++ [v])) m

theorem getD_pushUnder (key : V → K) (m : BTreeMap K (List V)) (l : List V) (k : K) :
    (pushUnder key m l)[k]?.getD [] = m[k]?.getD [] ++ l.filter fun v ↦ key v = k := by
  induction l generalizing m with
  | nil => simp [pushUnder]
  | cons v l ih =>
    rw [pushUnder, List.foldl_cons, ← pushUnder, ih, ExtTreeMap.getElem?_alter]
    by_cases h : key v = k
    · subst h
      simp [List.append_assoc]
    · simp [h]

/-- Insert each element of a list into the set under its key, as
`entry(key).or_default().insert` does in a loop. -/
def insertUnder (key : K → K) (m : BTreeMap K (BTreeSet K)) (l : List K) :
    BTreeMap K (BTreeSet K) :=
  l.foldl (fun m v ↦ m.alter (key v) fun vs ↦ some ((vs.getD ∅).insert v)) m

theorem mem_getD_insertUnder (key : K → K) (m : BTreeMap K (BTreeSet K)) (l : List K) {k v : K} :
    v ∈ (insertUnder key m l)[k]?.getD ∅ ↔ v ∈ m[k]?.getD ∅ ∨ (v ∈ l ∧ key v = k) := by
  induction l generalizing m with
  | nil => simp [insertUnder]
  | cons w l ih =>
    rw [insertUnder, List.foldl_cons, ← insertUnder, ih, ExtTreeMap.getElem?_alter]
    by_cases h : key w = k
    · subst h
      simp only [compare_self, ↓reduceIte, Option.getD_some, mem_insert_iff, List.mem_cons]
      by_cases hv : v = w
      · subst hv
        simp
      · simp [hv]
    · have hwv : ∀ h' : v = w, key v ≠ k := fun h' ↦ h' ▸ h
      simp only [Std.compare_eq_iff_eq, h, ↓reduceIte, List.mem_cons]
      by_cases hv : v = w
      · simp [hv, h]
      · simp [hv]

/-! ## Bottom-up passes -/

omit [LawfulEqOrd K] [DecidableEq K] in
/-- A set in descending order. -/
theorem pairwise_reverse_toList (s : BTreeSet K) :
    s.toList.reverse.Pairwise fun a b ↦ compare b a = .lt :=
  List.pairwise_reverse.mpr ExtTreeSet.ordered_toList

omit [LawfulEqOrd K] [DecidableEq K] in
theorem nodup_reverse_toList (s : BTreeSet K) : s.toList.reverse.Nodup :=
  (pairwise_reverse_toList s).imp fun h heq ↦ by
    subst heq
    simp [compare_self] at h

/-- Put a value at a key, or clear the key. -/
def put (m : BTreeMap K V) (k : K) (v : Option V) : BTreeMap K V :=
  match v with
  | some v => m.insert k v
  | none => m.erase k

omit [DecidableEq K] in
@[simp] theorem getElem?_put_self (m : BTreeMap K V) (k : K) (v : Option V) :
    (put m k v)[k]? = v := by
  cases v <;> simp [put]

theorem getElem?_put_of_ne (m : BTreeMap K V) {k j : K} (v : Option V) (h : k ≠ j) :
    (put m k v)[j]? = m[j]? := by
  cases v <;> simp [put, getElem?_insert_eq, getElem?_erase_eq, h]

/-- Visit the keys in turn and put at each what `g` computes from the map. -/
def pass (g : BTreeMap K V → K → Option V) (m : BTreeMap K V) (ks : List K) : BTreeMap K V :=
  ks.foldl (fun m k ↦ put m k (g m k)) m

/-- `g` computes the value at a key from what the map holds at greater keys. -/
def ReadsAbove (g : BTreeMap K V → K → Option V) : Prop :=
  ∀ (m m' : BTreeMap K V) (k : K),
    (∀ j, compare k j = .lt → m[j]? = m'[j]?) → g m k = g m' k

/-- A pass leaves the keys it does not visit alone. -/
theorem getElem?_pass_of_notMem (g : BTreeMap K V → K → Option V) (m : BTreeMap K V)
    {ks : List K} {k : K} (hk : k ∉ ks) : (pass g m ks)[k]? = m[k]? := by
  induction ks generalizing m with
  | nil => rfl
  | cons j ks ih =>
    rw [List.mem_cons, not_or] at hk
    rw [pass, List.foldl_cons, ← pass, ih _ hk.2, getElem?_put_of_ne _ _ (Ne.symm hk.1)]

/-- A pass in descending order leaves a fixed point on the keys it visits. -/
theorem getElem?_pass_of_mem {g : BTreeMap K V → K → Option V} (hg : ReadsAbove g)
    (m : BTreeMap K V) {ks : List K} (hks : ks.Pairwise fun a b ↦ compare b a = .lt) {k : K}
    (hk : k ∈ ks) : (pass g m ks)[k]? = g (pass g m ks) k := by
  induction ks generalizing m with
  | nil => cases hk
  | cons j ks ih =>
    rw [List.pairwise_cons] at hks
    obtain ⟨hj, hks⟩ := hks
    rw [pass, List.foldl_cons, ← pass]
    by_cases hmem : k ∈ ks
    · exact ih _ hks hmem
    · obtain rfl : k = j := (List.mem_cons.mp hk).resolve_right hmem
      rw [getElem?_pass_of_notMem _ _ hmem, getElem?_put_self]
      refine hg _ _ _ fun i hi ↦ ?_
      have hne : k ≠ i := by
        rintro rfl
        simp [compare_self] at hi
      have hi' : i ∉ ks := fun h ↦ by
        have := hj i h
        rw [OrientedCmp.gt_of_lt this] at hi
        cases hi
      rw [getElem?_pass_of_notMem _ _ hi', getElem?_put_of_ne _ _ hne]

end OrdMap

end Lilsync.Lib
