import Lilsync.Tree.Derive

/-!
# Incremental updates

`update_tree_snapshot` recomputes the nodes at the *dirty* paths only, deepest
first, and drops a recomputed node that came out empty.  It keeps a tree over
the old index well-formed as a tree over the new one
(`updateTreeSnapshot_wellFormed`), but not always equal to the derived tree:
an included directory with nothing in it has a derived node, and loses it as
soon as it gets dirty (`mem_updateTreeSnapshot_iff`).
`updateTreeSnapshot_eq_deriveTreeWith_iff` says exactly when the two agree.
-/

namespace Lilsync

open Std (ExtTreeMap ExtTreeSet)
open Lilsync.Lib Lilsync.Lib.SlashPath

/-- The list names every path at which the two indexes differ. -/
def Covers (entries entries' : Index) (changedPaths : List Str) : Prop :=
  ∀ p : Str, entries[p]? ≠ entries'[p]? → p ∈ changedPaths

/-! ## Dirty paths -/

section Dirty

variable {S : TreeSnapshot} {entries' : Index} {changedPaths : List Str} {incl : Entry → Bool}
  {k q : Str}

/-- The path or one of its ancestors. -/
def UpTo (q k : Str) : Prop := k = q ∨ k ∈ ancestors q

theorem UpTo.parentPath (h : UpTo q k) : UpTo q (parentPath k) := by
  rcases h with rfl | h
  · exact Or.inr (parent_mem_ancestors k)
  · exact Or.inr (parent_mem_ancestors_of_mem h)

theorem mem_foldl_changedAndAncestors (l : List Str) (s : BTreeSet Str) :
    k ∈ l.foldl (fun dirty path ↦ extendAncestors (dirty.insert path) path) s ↔
      k ∈ s ∨ ∃ q ∈ l, UpTo q k := by
  induction l generalizing s with
  | nil => simp
  | cons q l ih =>
    rw [List.foldl_cons, ih, mem_extendAncestors_iff, OrdMap.mem_insert_iff]
    simp only [List.mem_cons, exists_eq_or_imp, UpTo, or_assoc, or_left_comm]

theorem mem_foldl_descendants (l : List Str) (s : BTreeSet Str) :
    k ∈ l.foldl (fun dirty desc ↦ (extendAncestors dirty desc).insert desc) s ↔
      k ∈ s ∨ ∃ q ∈ l, UpTo q k := by
  induction l generalizing s with
  | nil => simp
  | cons q l ih =>
    rw [List.foldl_cons, ih, OrdMap.mem_insert_iff, mem_extendAncestors_iff]
    simp only [List.mem_cons, exists_eq_or_imp, UpTo, or_assoc, or_left_comm]

/-- A changed node that is no longer included, with a node below it. -/
def Uncovers (S : TreeSnapshot) (entries' : Index) (incl : Entry → Bool) (q d : Str) : Prop :=
  q ∈ S.nodes ∧ ¬ isIncluded entries' incl q ∧ d ∈ S.nodes ∧ Below slash q d

theorem mem_addDescendants_iff {s : BTreeSet Str} :
    k ∈ addDescendants S.nodes entries' incl s q ↔
      k ∈ s ∨ ∃ d, Uncovers S entries' incl q d ∧ UpTo d k := by
  rw [addDescendants]
  by_cases hq : q ∈ S.nodes
  · by_cases hi : isIncluded entries' incl q
    · simp [hq, hi, Uncovers]
    · simp only [hq, not_true_eq_false, ↓reduceIte, hi, Bool.false_eq_true, mem_foldl_descendants,
        List.mem_filter, ExtTreeMap.mem_keys, decide_eq_true_iff, Uncovers, not_false_eq_true,
        true_and]
  · simp [hq, Uncovers]

/-- The dirty paths: the changed ones, the nodes below those that are no longer
included, and all their ancestors. -/
theorem mem_dirtyPaths_iff :
    k ∈ dirtyPaths S entries' changedPaths incl ↔
      (∃ q ∈ changedPaths, UpTo q k) ∨
        ∃ q ∈ changedPaths, ∃ d, Uncovers S entries' incl q d ∧ UpTo d k := by
  have key : ∀ (l : List Str) (s : BTreeSet Str),
      k ∈ l.foldl (addDescendants S.nodes entries' incl) s ↔
        k ∈ s ∨ ∃ q ∈ l, ∃ d, Uncovers S entries' incl q d ∧ UpTo d k := by
    intro l
    induction l with
    | nil => simp
    | cons q l ih =>
      intro s
      rw [List.foldl_cons, ih, mem_addDescendants_iff, or_assoc]
      simp only [List.mem_cons, exists_eq_or_imp]
  rw [dirtyPaths, key, changedAndAncestors, mem_foldl_changedAndAncestors]
  simp

theorem mem_dirtyPaths_of_upTo (hq : q ∈ changedPaths) (h : UpTo q k) :
    k ∈ dirtyPaths S entries' changedPaths incl :=
  mem_dirtyPaths_iff.mpr (Or.inl ⟨q, hq, h⟩)

/-- The parent of a dirty path is dirty. -/
theorem parentPath_mem_dirtyPaths (h : k ∈ dirtyPaths S entries' changedPaths incl) :
    parentPath k ∈ dirtyPaths S entries' changedPaths incl := by
  rw [mem_dirtyPaths_iff] at h ⊢
  rcases h with ⟨q, hq, h⟩ | ⟨q, hq, d, hd, h⟩
  · exact Or.inl ⟨q, hq, h.parentPath⟩
  · exact Or.inr ⟨q, hq, d, hd, h.parentPath⟩

/-! ## Clean paths -/

variable {entries : Index}

/-- An entry at or below a clean path is included in one index exactly when it
is in the other. -/
theorem included_iff_of_upTo (hE : Keyed entries) (hE' : Keyed entries')
    (hcov : Covers entries entries' changedPaths)
    (hk : k ∉ dirtyPaths S entries' changedPaths incl) {e : Entry} (hu : UpTo e.path k) :
    Included entries incl e ↔ Included entries' incl e := by
  have heq : entries[e.path]? = entries'[e.path]? := by
    by_contra hne
    exact hk (mem_dirtyPaths_of_upTo (hcov _ hne) hu)
  constructor
  · intro h
    exact ⟨⟨e.path, heq ▸ h.getElem? hE⟩, h.2⟩
  · intro h
    exact ⟨⟨e.path, heq ▸ h.getElem? hE'⟩, h.2⟩

/-- A clean path is on the spine of one index exactly when it is on the other's. -/
theorem spine_iff_of_notMem (hE : Keyed entries) (hE' : Keyed entries')
    (hcov : Covers entries entries' changedPaths)
    (hk : k ∉ dirtyPaths S entries' changedPaths incl) :
    Spine entries incl k ↔ Spine entries' incl k := by
  refine or_congr_right (exists_congr fun e ↦ and_congr_left fun hb ↦ ?_)
  exact included_iff_of_upTo hE hE' hcov hk (Or.inr (mem_ancestors_iff.mpr (Or.inr hb)))

theorem includedDir_iff_of_notMem (hE : Keyed entries) (hE' : Keyed entries')
    (hcov : Covers entries entries' changedPaths)
    (hk : k ∉ dirtyPaths S entries' changedPaths incl) :
    IncludedDir entries incl k ↔ IncludedDir entries' incl k := by
  refine exists_congr fun e ↦ and_congr_left fun hb ↦ ?_
  exact included_iff_of_upTo hE hE' hcov hk (Or.inl hb.2.symm)

end Dirty

/-! ## The bottom-up pass -/

theorem mem_childKeys_iff {S : TreeSnapshot} {dirty : BTreeSet Str} {c k : Str} :
    c ∈ (childKeys S dirty)[k]?.getD ∅ ↔
      (c ∈ S.nodes ∨ c ∈ dirty) ∧ c ≠ [] ∧ parentPath c = k := by
  rw [childKeys, OrdMap.mem_getD_insertUnder]
  simp only [ExtTreeMap.getElem?_empty, Option.getD_none, ExtTreeSet.not_mem_empty, false_or,
    List.mem_filter, List.mem_append, ExtTreeMap.mem_keys, ExtTreeSet.mem_toList,
    decide_eq_true_iff, and_assoc]

theorem getD_byParent (entries : Index) (incl : Entry → Bool) (k : Str) :
    (byParent entries incl)[k]?.getD [] = directEntries entries incl k := by
  rw [byParent, OrdMap.getD_pushUnder, directEntries]
  simp

variable [Blake3]

/-- What the pass computes, from the lists a node is put together from. -/
theorem updatedNode_eq (entries : Index) (incl : Entry → Bool)
    (childKeys : BTreeMap Str (BTreeSet Str)) (nodes : BTreeMap Str TreeNode) (k : Str) :
    updatedNode (byParent entries incl) childKeys nodes k =
      let es := nameHashes (directEntries entries incl k)
      let cs := nodeHashes nodes (childKeys[k]?.getD ∅).toList
      if k = [] ∨ es ≠ [] ∨ cs ≠ [] then
        some (TreeNode.mk' k (ExtTreeMap.ofList es) (ExtTreeMap.ofList cs))
      else none := by
  rw [updatedNode, getD_byParent]
  simp only [ne_eq, ExtTreeMap.ofList_eq_empty_iff]
  rfl

theorem readsAbove_updatedNode (byParent : BTreeMap Str (List Entry)) (S : TreeSnapshot)
    (dirty : BTreeSet Str) : OrdMap.ReadsAbove (updatedNode byParent (childKeys S dirty)) := by
  intro m m' k h
  have hcs : ((childKeys S dirty)[k]?.getD ∅).toList.filterMap
        (fun k ↦ m[k]?.map fun v ↦ (basename k, v.hash)) =
      ((childKeys S dirty)[k]?.getD ∅).toList.filterMap
        (fun k ↦ m'[k]?.map fun v ↦ (basename k, v.hash)) := by
    refine List.filterMap_congr fun c hc ↦ ?_
    obtain ⟨-, hne, rfl⟩ := mem_childKeys_iff.mp (ExtTreeSet.mem_toList.mp hc)
    rw [h c (compare_parentPath hne)]
  simp only [updatedNode, hcs]

section Update

variable {S : TreeSnapshot} {entries entries' : Index} {changedPaths : List Str}
  {incl : Entry → Bool} {k : Str}

/-- The update leaves clean paths alone. -/
theorem getElem?_updateTreeSnapshot_of_notMem
    (hk : k ∉ dirtyPaths S entries' changedPaths incl) :
    (updateTreeSnapshot S entries' changedPaths incl).nodes[k]? = S.nodes[k]? := by
  refine OrdMap.getElem?_pass_of_notMem _ _ ?_
  rwa [List.mem_reverse, ExtTreeSet.mem_toList]

/-- At a dirty path the update leaves a fixed point of what the pass computes. -/
theorem getElem?_updateTreeSnapshot_of_mem
    (hk : k ∈ dirtyPaths S entries' changedPaths incl) :
    (updateTreeSnapshot S entries' changedPaths incl).nodes[k]? =
      updatedNode (byParent entries' incl)
        (childKeys S (dirtyPaths S entries' changedPaths incl))
        (updateTreeSnapshot S entries' changedPaths incl).nodes k := by
  refine OrdMap.getElem?_pass_of_mem (readsAbove_updatedNode _ _ _) _
    (OrdMap.pairwise_reverse_toList _) ?_
  rwa [List.mem_reverse, ExtTreeSet.mem_toList]

/-- A path with a node after the update had one before or is dirty. -/
theorem mem_or_mem_of_mem_updateTreeSnapshot
    (hk : k ∈ (updateTreeSnapshot S entries' changedPaths incl).nodes) :
    k ∈ S.nodes ∨ k ∈ dirtyPaths S entries' changedPaths incl := by
  by_cases hd : k ∈ dirtyPaths S entries' changedPaths incl
  · exact Or.inr hd
  · left
    rw [ExtTreeMap.mem_iff_isSome_getElem?] at hk ⊢
    rwa [← getElem?_updateTreeSnapshot_of_notMem hd]

/-- At a dirty path there is a node afterwards if it is the root or there is an
entry or a node directly below. -/
theorem mem_updateTreeSnapshot_of_mem (hk : k ∈ dirtyPaths S entries' changedPaths incl) :
    k ∈ (updateTreeSnapshot S entries' changedPaths incl).nodes ↔
      k = [] ∨ (∃ e, Included entries' incl e ∧ parentPath e.path = k) ∨
        ∃ c, c ≠ [] ∧ parentPath c = k ∧
          c ∈ (updateTreeSnapshot S entries' changedPaths incl).nodes := by
  have hes : nameHashes (directEntries entries' incl k) ≠ [] ↔
      ∃ e, Included entries' incl e ∧ parentPath e.path = k := by
    rw [nameHashes, ne_eq, List.map_eq_nil_iff, List.eq_nil_iff_forall_not_mem]
    simp only [mem_directEntries_iff, not_forall, not_not]
  have hcs : nodeHashes (updateTreeSnapshot S entries' changedPaths incl).nodes
        ((childKeys S (dirtyPaths S entries' changedPaths incl))[k]?.getD ∅).toList ≠ [] ↔
      ∃ c, c ≠ [] ∧ parentPath c = k ∧
        c ∈ (updateTreeSnapshot S entries' changedPaths incl).nodes := by
    simp only [nodeHashes, ne_eq, List.filterMap_eq_nil_iff, ExtTreeSet.mem_toList,
      mem_childKeys_iff, Option.map_eq_none_iff, not_forall, exists_prop]
    refine exists_congr fun c ↦ ?_
    have hc : ¬ (updateTreeSnapshot S entries' changedPaths incl).nodes[c]? = none ↔
        c ∈ (updateTreeSnapshot S entries' changedPaths incl).nodes := by
      rw [ExtTreeMap.mem_iff_isSome_getElem?, ← Option.ne_none_iff_isSome]
    rw [hc]
    exact ⟨fun h ↦ ⟨h.1.2.1, h.1.2.2, h.2⟩, fun h ↦
      ⟨⟨mem_or_mem_of_mem_updateTreeSnapshot h.2.2, h.1, h.2.1⟩, h.2.2⟩⟩
  rw [ExtTreeMap.mem_iff_isSome_getElem?, getElem?_updateTreeSnapshot_of_mem hk, updatedNode_eq]
  simp only [hes, hcs]
  split <;> simp_all

/-! ## The updated tree -/

/-- The nodes of the updated tree: the spine of the new index, and those
included directories that had a node and are clean. -/
theorem mem_updateTreeSnapshot_iff (hE : Keyed entries) (hE' : Keyed entries')
    (hS : WellFormed S entries incl) (hcov : Covers entries entries' changedPaths) :
    k ∈ (updateTreeSnapshot S entries' changedPaths incl).nodes ↔
      Spine entries' incl k ∨ (IncludedDir entries' incl k ∧ k ∈ S.nodes ∧
        k ∉ dirtyPaths S entries' changedPaths incl) := by
  obtain ⟨L, hL⟩ := exists_length_le (updateTreeSnapshot S entries' changedPaths incl).nodes
  obtain ⟨L', hL'⟩ := exists_length_le (deriveTreeWith entries' incl).nodes
  -- Longest paths first, as the pass visits them.
  induction hd : max L L' + 1 - k.length using Nat.strong_induction_on generalizing k with
  | _ d ih =>
    by_cases hk : k ∈ dirtyPaths S entries' changedPaths incl
    · rw [mem_updateTreeSnapshot_of_mem hk]
      constructor
      · rintro (rfl | ⟨e, he, rfl⟩ | ⟨c, hne, rfl, hc⟩)
        · exact Or.inl (Or.inl rfl)
        · exact Or.inl (he.spine (parent_mem_ancestors _))
        · have hlen : (parentPath c).length < c.length := length_parent_lt hne
          have hle := hL c hc
          rcases (ih _ (by omega) rfl).mp hc with hs | ⟨⟨e, he, -, rfl⟩, -⟩
          · exact Or.inl (hs.of_mem_ancestors (parent_mem_ancestors _))
          · exact Or.inl (he.spine (parent_mem_ancestors _))
      · rintro (hs | ⟨-, -, h⟩)
        · rcases hs with rfl | ⟨e, he, hb⟩
          · exact Or.inl rfl
          · by_cases hp : parentPath e.path = k
            · exact Or.inr (Or.inl ⟨e, he, hp⟩)
            · obtain ⟨c, hne, hck, hce⟩ := exists_child_of_mem_ancestors
                (mem_ancestors_iff.mpr (Or.inr hb)) hp
              have hcs : Spine entries' incl c := Or.inr ⟨e, he, hce⟩
              have hlen : (parentPath c).length < c.length := length_parent_lt hne
              have hle := hL' c (mem_deriveTreeWith_iff.mpr (Or.inl hcs))
              exact Or.inr (Or.inr ⟨c, hne, hck, (ih _ (by rw [parentPath, hck] at hlen; omega) rfl).mpr
                (Or.inl hcs)⟩)
        · exact absurd hk h
    · have hmem : k ∈ (updateTreeSnapshot S entries' changedPaths incl).nodes ↔ k ∈ S.nodes := by
        rw [ExtTreeMap.mem_iff_isSome_getElem?, getElem?_updateTreeSnapshot_of_notMem hk,
          ← ExtTreeMap.mem_iff_isSome_getElem?]
      have hspine := spine_iff_of_notMem hE hE' hcov hk
      have hdir := includedDir_iff_of_notMem hE hE' hcov hk
      rw [hmem, ← hspine, ← hdir]
      constructor
      · intro h
        exact (hS.spine_or_dir h).imp id fun hd ↦ ⟨hd, h, hk⟩
      · rintro (h | ⟨-, h, -⟩)
        · exact hS.mem_of_spine h
        · exact h

/-- The update turns a tree over the old index into a tree over the new one. -/
theorem updateTreeSnapshot_wellFormed (hE : Keyed entries) (hE' : Keyed entries')
    (hS : WellFormed S entries incl) (hcov : Covers entries entries' changedPaths) :
    WellFormed (updateTreeSnapshot S entries' changedPaths incl) entries' incl where
  mem_of_spine h := (mem_updateTreeSnapshot_iff hE hE' hS hcov).mpr (Or.inl h)
  spine_or_dir h := ((mem_updateTreeSnapshot_iff hE hE' hS hcov).mp h).imp id And.left
  rootHash_eq := rfl
  isNode := by
    have hproper : ∀ c : Str, c ∈ (updateTreeSnapshot S entries' changedPaths incl).nodes →
        c = [] ∨ Proper slash c := fun c hc ↦
      ((mem_updateTreeSnapshot_iff hE hE' hS hcov).mp hc).elim (Spine.proper hE') fun hd ↦
        Or.inr (hd.1.proper hE')
    intro k n hn
    by_cases hk : k ∈ dirtyPaths S entries' changedPaths incl
    · rw [getElem?_updateTreeSnapshot_of_mem hk, updatedNode_eq] at hn
      dsimp only at hn
      split at hn
      · obtain rfl := Option.some.inj hn
        refine isNode_mk' hE' hproper (fun _ ↦ mem_directEntries_iff)
          (fun c hc ↦ (mem_childKeys_iff.mp (ExtTreeSet.mem_toList.mp hc)).2) ?_
        intro c hne hp hc
        exact ExtTreeSet.mem_toList.mpr
          (mem_childKeys_iff.mpr ⟨mem_or_mem_of_mem_updateTreeSnapshot hc, hne, hp⟩)
      · cases hn
    · rw [getElem?_updateTreeSnapshot_of_notMem hk] at hn
      have h := hS.isNode hn
      -- What lies directly in a clean directory is clean as well.
      have hclean : ∀ {c}, parentPath c = k → c ∉ dirtyPaths S entries' changedPaths incl :=
        fun hc hd ↦ hk (hc ▸ parentPath_mem_dirtyPaths hd)
      refine ⟨h.prefix_eq, ?_, ?_, h.hash_eq⟩
      · refine fun {_ _} ↦ h.entries_iff.trans (exists_congr fun e ↦ and_congr_left fun he ↦ ?_)
        exact included_iff_of_upTo hE hE' hcov (hclean he.1) (Or.inl rfl)
      · refine fun {_ _} ↦ h.children_iff.trans (exists_congr fun c ↦ exists_congr fun m ↦ ?_)
        refine and_congr_right fun _ ↦ and_congr_left fun hc ↦ ?_
        rw [getElem?_updateTreeSnapshot_of_notMem (hclean hc.1)]

end Update

/-! ## When the updated tree is the derived one -/

/-- An included directory with no included entry in it. -/
def EmptyDir (entries : Index) (incl : Entry → Bool) (d : Str) : Prop :=
  IncludedDir entries incl d ∧ ∀ e, Included entries incl e → ¬ Below slash d e.path

/-- A change at `q` makes the directory `d` dirty: it is at `d`, or below `d`,
or above `d` and leaves nothing included behind. -/
def Touches (entries' : Index) (incl : Entry → Bool) (q d : Str) : Prop :=
  d = q ∨ Below slash d q ∨ (Below slash q d ∧ ¬ isIncluded entries' incl q)

/-! ## Deciding the hypotheses -/

instance (entries : Index) : Decidable (Keyed entries) :=
  decidable_of_iff (∀ kv ∈ entries.toList, kv.2.path = kv.1 ∧ Proper slash kv.1)
    ⟨fun h ↦ ⟨fun hk ↦ (h _ (ExtTreeMap.mem_toList_iff_getElem?_eq_some.mpr hk)).1,
      fun hk ↦ (h _ (ExtTreeMap.mem_toList_iff_getElem?_eq_some.mpr hk)).2⟩,
    fun h kv hkv ↦ by
      have hk := ExtTreeMap.mem_toList_iff_getElem?_eq_some.mp hkv
      exact ⟨h.path_eq hk, h.proper hk⟩⟩

instance (entries entries' : Index) (changedPaths : List Str) :
    Decidable (Covers entries entries' changedPaths) :=
  decidable_of_iff (∀ p ∈ entries.keys ++ entries'.keys, entries[p]? ≠ entries'[p]? →
      p ∈ changedPaths)
    ⟨fun h p hne ↦ by
      refine h p ?_ hne
      by_contra hp
      simp only [List.mem_append, ExtTreeMap.mem_keys, not_or] at hp
      rw [ExtTreeMap.getElem?_eq_none hp.1, ExtTreeMap.getElem?_eq_none hp.2] at hne
      exact hne rfl,
    fun h p _ ↦ h p⟩

instance (entries' : Index) (incl : Entry → Bool) (q d : Str) :
    Decidable (Touches entries' incl q d) := by
  unfold Touches
  infer_instance

instance (entries : Index) (incl : Entry → Bool) (d : Str) : Decidable (EmptyDir entries incl d) :=
  decidable_of_iff
    ((∃ e ∈ (OrdMap.values entries).filter incl, e.kind = .dir ∧ e.path = d) ∧
      ∀ e ∈ (OrdMap.values entries).filter incl, ¬ Below slash d e.path)
    (by simp only [EmptyDir, IncludedDir, mem_filter_values_iff])

instance (entries' : Index) (incl : Entry → Bool) (changedPaths : List Str) :
    Decidable (∀ d, EmptyDir entries' incl d →
      ∀ q ∈ changedPaths, ¬ Touches entries' incl q d) :=
  decidable_of_iff
    (∀ e ∈ OrdMap.values entries', EmptyDir entries' incl e.path →
      ∀ q ∈ changedPaths, ¬ Touches entries' incl q e.path)
    ⟨fun h d hd ↦ by
      obtain ⟨⟨e, ⟨he, -⟩, -, rfl⟩, -⟩ := id hd
      exact h e (OrdMap.mem_values_iff.mpr he) hd,
    fun h e _ ↦ h e.path⟩

section Agreement

variable {S : TreeSnapshot} {entries entries' : Index} {changedPaths : List Str} {incl : Entry → Bool} {d : Str}

omit [Blake3] in
theorem emptyDir_iff (hE : Keyed entries) :
    EmptyDir entries incl d ↔ IncludedDir entries incl d ∧ ¬ Spine entries incl d := by
  refine and_congr_right fun hd ↦ ?_
  have hne : d ≠ [] := (hd.proper hE).ne_nil
  simp [Spine, hne]

/-- For a directory that has a node, dirty means touched. -/
theorem mem_dirtyPaths_iff_of_mem (hS : WellFormed S entries incl) (hne : d ≠ [])
    (hd : d ∈ S.nodes) : d ∈ dirtyPaths S entries' changedPaths incl ↔
      ∃ q ∈ changedPaths, Touches entries' incl q d := by
  have hupTo : ∀ {q}, UpTo q d ↔ d = q ∨ Below slash d q := by
    intro q
    rw [UpTo, ancestors, mem_ancestors_iff]
    simp [hne]
  constructor
  · intro h
    rcases mem_dirtyPaths_iff.mp h with ⟨q, hq, hu⟩ | ⟨q, hq, c, ⟨-, hi, -, hqc⟩, hu⟩
    · exact ⟨q, hq, (hupTo.mp hu).imp id .inl⟩
    · refine ⟨q, hq, ?_⟩
      rcases hupTo.mp hu with rfl | hdc
      · exact .inr (.inr ⟨hqc, hi⟩)
      · rcases hdc.comparable hqc with rfl | h | h
        · exact .inl rfl
        · exact .inr (.inl h)
        · exact .inr (.inr ⟨h, hi⟩)
  · rintro ⟨q, hq, rfl | hb | ⟨hb, hi⟩⟩
    · exact mem_dirtyPaths_of_upTo hq (.inl rfl)
    · exact mem_dirtyPaths_of_upTo hq (hupTo.mpr (.inr hb))
    · refine mem_dirtyPaths_iff.mpr (.inr ⟨q, hq, d, ⟨hS.mem_of_below hd hb, hi, hd, hb⟩, .inl rfl⟩)

/-- For an empty directory, dirty means touched. -/
theorem mem_dirtyPaths_iff_touches (hE : Keyed entries) (hE' : Keyed entries')
    (hcov : Covers entries entries' changedPaths) (hd : IncludedDir entries' incl d) :
    d ∈ dirtyPaths (deriveTreeWith entries incl) entries' changedPaths incl ↔
      ∃ q ∈ changedPaths, Touches entries' incl q d := by
  have hS : WellFormed (deriveTreeWith entries incl) entries incl := deriveTreeWith_wellFormed hE
  have hne : d ≠ [] := (hd.proper hE').ne_nil
  by_cases hmem : d ∈ (deriveTreeWith entries incl).nodes
  · exact mem_dirtyPaths_iff_of_mem hS hne hmem
  · -- the directory is new
    have hdir := mt (fun h ↦ mem_deriveTreeWith_iff.mpr (Or.inr h)) hmem
    have hchanged : entries[d]? ≠ entries'[d]? := by
      obtain ⟨e, he, hkind, rfl⟩ := hd
      exact fun heq ↦ hdir ⟨e, ⟨⟨e.path, heq.trans (he.getElem? hE')⟩, he.2⟩, hkind, rfl⟩
    exact iff_of_true (mem_dirtyPaths_of_upTo (hcov d hchanged) (Or.inl rfl))
      ⟨d, hcov d hchanged, Or.inl rfl⟩

/-- The updated tree is the derived one exactly when no empty directory of the
new index is touched by a change. -/
theorem updateTreeSnapshot_eq_deriveTreeWith_iff (hE : Keyed entries) (hE' : Keyed entries')
    (hcov : Covers entries entries' changedPaths) :
    updateTreeSnapshot (deriveTreeWith entries incl) entries' changedPaths incl =
        deriveTreeWith entries' incl ↔
      ∀ d, EmptyDir entries' incl d → ∀ q ∈ changedPaths, ¬ Touches entries' incl q d := by
  have hS : WellFormed (deriveTreeWith entries incl) entries incl := deriveTreeWith_wellFormed hE
  constructor
  · intro heq d hd q hq ht
    obtain ⟨hdir, hspine⟩ := (emptyDir_iff hE').mp hd
    have hmem : d ∈ (deriveTreeWith entries' incl).nodes := mem_deriveTreeWith_iff.mpr (Or.inr hdir)
    rw [← heq, mem_updateTreeSnapshot_iff hE hE' hS hcov] at hmem
    rcases hmem with h | ⟨-, -, h⟩
    · exact hspine h
    · exact h ((mem_dirtyPaths_iff_touches hE hE' hcov hdir).mpr ⟨q, hq, ht⟩)
  · intro hclean
    refine (updateTreeSnapshot_wellFormed hE hE' hS hcov).eq_of_mem_iff
      (deriveTreeWith_wellFormed hE') fun d ↦ ?_
    refine (mem_updateTreeSnapshot_iff hE hE' hS hcov).trans (.trans ?_ mem_deriveTreeWith_iff.symm)
    constructor
    · exact fun h ↦ h.imp id And.left
    · intro h
      by_cases hspine : Spine entries' incl d
      · exact Or.inl hspine
      · have hdir := h.resolve_left hspine
        have hd := (emptyDir_iff hE').mpr ⟨hdir, hspine⟩
        have hndirty : d ∉ dirtyPaths (deriveTreeWith entries incl) entries' changedPaths incl :=
          fun hmem ↦
            let ⟨q, hq, ht⟩ := (mem_dirtyPaths_iff_touches hE hE' hcov hdir).mp hmem
            hclean d hd q hq ht
        have hdir' := (includedDir_iff_of_notMem hE hE' hcov hndirty).mpr hdir
        exact Or.inr ⟨hdir, mem_deriveTreeWith_iff.mpr (Or.inr hdir'), hndirty⟩

omit [Blake3] in
/-- Deleting the one file of a directory leaves a tombstone, which the full tree
includes: the directory does not come out empty. -/
theorem updateTreeSnapshot_eq_deriveTreeWith_tombstone :
    letI : Blake3 := Blake3.reference
    updateTreeSnapshot
        (deriveTreeWith (indexOf [⟨lit "d", .dir, none, none, 0, none, ⟨1, lit "a"⟩⟩,
          ⟨lit "d/x", .file, some zeroHash, none, 3, none, ⟨2, lit "a"⟩⟩]) inclAll)
        (indexOf [⟨lit "d", .dir, none, none, 0, none, ⟨1, lit "a"⟩⟩,
          ⟨lit "d/x", .tombstone, none, none, 0, none, ⟨3, lit "a"⟩⟩]) [lit "d/x"] inclAll =
      deriveTreeWith (indexOf [⟨lit "d", .dir, none, none, 0, none, ⟨1, lit "a"⟩⟩,
        ⟨lit "d/x", .tombstone, none, none, 0, none, ⟨3, lit "a"⟩⟩]) inclAll :=
  letI : Blake3 := Blake3.reference
  (updateTreeSnapshot_eq_deriveTreeWith_iff (by decide +kernel) (by decide +kernel)
    (by decide +kernel)).mpr (by decide +kernel)

omit [Blake3] in
/-- The counterexample: the first entry of an empty index is a directory with
nothing in it.  The derived tree has a node for it and the updated one has none,
whatever the hash function. -/
theorem not_forall_updateTreeSnapshot_eq_deriveTreeWith :
    ¬ ∃ _ : Blake3, ∀ incl ∈ [inclAll, inclLive], ∀ (entries entries' : Index)
      (changedPaths : List Str), Keyed entries → Keyed entries' →
      Covers entries entries' changedPaths →
      updateTreeSnapshot (deriveTreeWith entries incl) entries' changedPaths incl =
        deriveTreeWith entries' incl := by
  rintro ⟨_, h⟩
  have heq := h inclAll (by simp) ∅ (indexOf [⟨lit "d", .dir, none, none, 0, none, ⟨1, lit "a"⟩⟩]) [lit "d"] (by decide) (by decide)
    (by decide)
  have hmem := congrArg (fun S : TreeSnapshot ↦ S.nodes.contains (lit "d")) heq
  exact Bool.false_ne_true hmem

end Agreement

end Lilsync
