import Lilsync.Tree.Update

/-!
# One update after the other

Two incremental updates in a row are one update for all changed paths, on one
condition: where the first one finds a changed path without an included entry,
nothing included is left below that path (`ClearsBelow`).  Otherwise the first
update could drop the node of an empty directory that a single update, which
looks at the second index only, leaves alone.
-/

namespace Lilsync

open Lilsync.Lib.SlashPath

/-- Below a changed path that is not included nothing is. -/
def ClearsBelow (entries : Index) (incl : Entry → Bool) (changedPaths : List Str) : Prop :=
  ∀ q ∈ changedPaths, ¬ isIncluded entries incl q →
    ∀ e, Included entries incl e → ¬ Below slash q e.path

section Compose

variable {S : TreeSnapshot} {entries entries₁ entries₂ : Index} {changed₁ changed₂ : List Str}
  {incl : Entry → Bool} {d q : Str}

theorem Covers.trans (h : Covers entries entries₁ changed₁) (h' : Covers entries₁ entries₂ changed₂) :
    Covers entries entries₂ (changed₁ ++ changed₂) := by
  intro p hp
  by_cases hp₁ : entries[p]? = entries₁[p]?
  · exact List.mem_append_right _ (h' p (hp₁ ▸ hp))
  · exact List.mem_append_left _ (h p hp₁)

/-- What is at a path that is not listed is included before and after. -/
theorem Covers.isIncluded_eq (h : Covers entries entries₁ changed₁) (hq : q ∉ changed₁) :
    isIncluded entries₁ incl q = isIncluded entries incl q := by
  have heq : entries[q]? = entries₁[q]? := by
    by_contra hne
    exact hq (h q hne)
  rw [isIncluded, isIncluded, heq]

/-- A directory that neither update touches is untouched by one update for both, and
the other way round. -/
theorem touches_append_iff (hE₂ : Keyed entries₂)
    (hcov : Covers entries₁ entries₂ changed₂) (hclears : ClearsBelow entries₁ incl changed₁)
    (hd : IncludedDir entries₂ incl d) : (∃ q ∈ changed₁ ++ changed₂, Touches entries₂ incl q d) ↔
      (∃ q ∈ changed₁, Touches entries₁ incl q d) ∨ ∃ q ∈ changed₂, Touches entries₂ incl q d := by
  constructor
  · rintro ⟨q, hq, ht⟩
    by_cases hq₂ : q ∈ changed₂
    · exact .inr ⟨q, hq₂, ht⟩
    · have hq₁ := (List.mem_append.mp hq).resolve_right hq₂
      refine .inl ⟨q, hq₁, ht.imp id (Or.imp id (And.imp id fun hi ↦ ?_))⟩
      rwa [hcov.isIncluded_eq hq₂] at hi
  · rintro (⟨q, hq, ht⟩ | ⟨q, hq, ht⟩)
    · rcases ht with rfl | hb | ⟨hb, hi⟩
      · exact ⟨_, List.mem_append_left _ hq, .inl rfl⟩
      · exact ⟨q, List.mem_append_left _ hq, .inr (.inl hb)⟩
      · -- `d` was not included after the first update, so the second one changed it
        refine ⟨d, List.mem_append_right _ (hcov d fun heq ↦ ?_), .inl rfl⟩
        obtain ⟨e, he, -, rfl⟩ := hd
        exact hclears q hq hi e ⟨⟨e.path, heq.trans (he.getElem? hE₂)⟩, he.2⟩ hb
    · exact ⟨q, List.mem_append_right _ hq, ht⟩

variable [Blake3]

/-- Two updates in a row are one update for all changed paths. -/
theorem updateTreeSnapshot_append (hE : Keyed entries) (hE₁ : Keyed entries₁)
    (hE₂ : Keyed entries₂) (hS : WellFormed S entries incl)
    (hcov₁ : Covers entries entries₁ changed₁) (hcov₂ : Covers entries₁ entries₂ changed₂)
    (hclears : ClearsBelow entries₁ incl changed₁) :
    updateTreeSnapshot (updateTreeSnapshot S entries₁ changed₁ incl) entries₂ changed₂ incl =
      updateTreeSnapshot S entries₂ (changed₁ ++ changed₂) incl := by
  have hS₁ := updateTreeSnapshot_wellFormed hE hE₁ hS hcov₁
  have hcov := hcov₁.trans hcov₂
  refine (updateTreeSnapshot_wellFormed hE₁ hE₂ hS₁ hcov₂).eq_of_mem_iff
    (updateTreeSnapshot_wellFormed hE hE₂ hS hcov) fun d ↦ ?_
  rw [mem_updateTreeSnapshot_iff hE₁ hE₂ hS₁ hcov₂, mem_updateTreeSnapshot_iff hE hE₂ hS hcov]
  by_cases hspine : Spine entries₂ incl d
  · exact iff_of_true (.inl hspine) (.inl hspine)
  refine or_congr_right (and_congr_right fun hd ↦ ?_)
  have hne : d ≠ [] := fun hnil ↦ hspine (.inl hnil)
  constructor
  · rintro ⟨hmem₁, hclean₂⟩
    have hspine₁ := mt (spine_iff_of_notMem hE₁ hE₂ hcov₂ hclean₂).mp hspine
    obtain ⟨-, hmem, hclean₁⟩ :=
      ((mem_updateTreeSnapshot_iff hE hE₁ hS hcov₁).mp hmem₁).resolve_left hspine₁
    refine ⟨hmem, fun hdirty ↦ ?_⟩
    rw [mem_dirtyPaths_iff_of_mem hS hne hmem,
      touches_append_iff hE₂ hcov₂ hclears hd] at hdirty
    rcases hdirty with h | h
    · exact hclean₁ ((mem_dirtyPaths_iff_of_mem hS hne hmem).mpr h)
    · exact hclean₂ ((mem_dirtyPaths_iff_of_mem hS₁ hne hmem₁).mpr h)
  · rintro ⟨hmem, hclean⟩
    rw [mem_dirtyPaths_iff_of_mem hS hne hmem,
      touches_append_iff hE₂ hcov₂ hclears hd, not_or] at hclean
    have hd₁ : IncludedDir entries₁ incl d := by
      obtain ⟨e, he, hkind, rfl⟩ := hd
      have heq : entries₁[e.path]? = entries₂[e.path]? := by
        by_contra hchanged
        exact hclean.2 ⟨e.path, hcov₂ _ hchanged, .inl rfl⟩
      exact ⟨e, ⟨⟨e.path, heq.trans (he.getElem? hE₂)⟩, he.2⟩, hkind, rfl⟩
    have hclean₁ := mt (mem_dirtyPaths_iff_of_mem hS hne hmem).mp hclean.1
    have hmem₁ := (mem_updateTreeSnapshot_iff hE hE₁ hS hcov₁).mpr (.inr ⟨hd₁, hmem, hclean₁⟩)
    exact ⟨hmem₁, mt (mem_dirtyPaths_iff_of_mem hS₁ hne hmem₁).mp hclean.2⟩

end Compose

end Lilsync
