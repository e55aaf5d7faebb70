import Lilsync.Tree.WellFormed

/-!
# The derived tree is well-formed

`derive_tree_with` makes its nodes in four loops: it collects the paths, makes
a blank node for each, fills in the entries, and finally visits the nodes
bottom-up to fill in the children and to hash.  Each loop gets a lemma that says
what it leaves behind.  The last one is a bottom-up pass in the sense of
`OrdMap.pass`; the two maps it fills, the nodes and their hashes, agree all
along.
-/

namespace Lilsync

open Std (ExtTreeMap ExtTreeSet)
open Lilsync.Lib Lilsync.Lib.SlashPath

variable {entries : Index} {incl : Entry → Bool} {k : Str}

/-! ## The paths -/

theorem mem_extendAncestors_iff {paths : BTreeSet Str} {path : Str} :
    k ∈ extendAncestors paths path ↔ k ∈ paths ∨ k ∈ ancestors path :=
  OrdMap.mem_foldl_insert

theorem mem_addNodePaths_iff {paths : BTreeSet Str} {e : Entry} :
    k ∈ addNodePaths incl paths e ↔
      k ∈ paths ∨ incl e ∧ (k ∈ ancestors e.path ∨ e.kind = .dir ∧ e.path = k) := by
  rw [addNodePaths]
  by_cases hi : incl e
  · by_cases hd : e.kind = .dir
    · simp only [hi, hd, ↓reduceIte, OrdMap.mem_insert_iff, mem_extendAncestors_iff, true_and,
        eq_comm (a := k)]
      tauto
    · simp only [hi, hd, ↓reduceIte, mem_extendAncestors_iff, true_and, false_and, or_false]
  · simp [hi]

theorem mem_foldl_addNodePaths (l : List Entry) (s : BTreeSet Str) :
    k ∈ l.foldl (addNodePaths incl) s ↔
      k ∈ s ∨ ∃ e ∈ l, incl e ∧ (k ∈ ancestors e.path ∨ e.kind = .dir ∧ e.path = k) := by
  induction l generalizing s with
  | nil => simp
  | cons e l ih =>
    rw [List.foldl_cons, ih, mem_addNodePaths_iff, or_assoc]
    simp only [List.mem_cons, exists_eq_or_imp]

/-- The derived tree's nodes: the spine and the included directories. -/
theorem mem_nodePaths_iff :
    k ∈ nodePaths entries incl ↔ Spine entries incl k ∨ IncludedDir entries incl k := by
  rw [nodePaths, mem_foldl_addNodePaths, spine_iff_mem_ancestors, IncludedDir]
  simp only [OrdMap.mem_insert_iff, ExtTreeSet.not_mem_empty, or_false, OrdMap.mem_values_iff,
    Included]
  constructor
  · rintro (h | ⟨e, he, hi, h | h⟩)
    · exact Or.inl (Or.inl h)
    · exact Or.inl (Or.inr ⟨e, ⟨he, hi⟩, h⟩)
    · exact Or.inr ⟨e, ⟨he, hi⟩, h⟩
  · rintro ((h | ⟨e, ⟨he, hi⟩, h⟩) | ⟨e, ⟨he, hi⟩, h⟩)
    · exact Or.inl h
    · exact Or.inr ⟨e, he, hi, Or.inl h⟩
    · exact Or.inr ⟨e, he, hi, Or.inr h⟩

/-! ## The partial nodes -/

theorem getElem?_foldl_blank (l : List Str) (m : BTreeMap Str TreeNode) :
    (l.foldl (fun partials path ↦ partials.insert path (TreeNode.blank path)) m)[k]? =
      if k ∈ l then some (TreeNode.blank k) else m[k]? := by
  induction l generalizing m with
  | nil => simp
  | cons j l ih =>
    rw [List.foldl_cons, ih, OrdMap.getElem?_insert_eq]
    by_cases hj : j = k
    · subst hj
      simp
    · simp [hj, Ne.symm hj]

variable [Blake3]

/-- The included entries directly in a directory. -/
def directEntries (entries : Index) (incl : Entry → Bool) (k : Str) : List Entry :=
  ((OrdMap.values entries).filter incl).filter fun e ↦ parentPath e.path = k

omit [Blake3] in
theorem mem_directEntries_iff {e : Entry} :
    e ∈ directEntries entries incl k ↔ Included entries incl e ∧ parentPath e.path = k := by
  rw [directEntries, List.mem_filter, mem_filter_values_iff, decide_eq_true_iff]

/-- A node with more entries. -/
def TreeNode.withEntries (n : TreeNode) (l : List (Str × Hash)) : TreeNode :=
  { n with entries := l.foldl (fun m kv ↦ m.insert kv.1 kv.2) n.entries }

theorem getElem?_foldl_addEntry (l : List Entry) (m : BTreeMap Str TreeNode) :
    (l.foldl (addEntry incl) m)[k]? = m[k]?.map fun n ↦
      n.withEntries (nameHashes ((l.filter incl).filter fun e ↦ parentPath e.path = k)) := by
  induction l generalizing m with
  | nil => simp [nameHashes, TreeNode.withEntries]
  | cons e l ih =>
    rw [List.foldl_cons, ih, addEntry]
    by_cases hi : incl e
    · by_cases hp : parentPath e.path = k
      · simp [hi, hp, nameHashes, Function.comp_def, TreeNode.withEntries]
      · simp [hi, hp, ExtTreeMap.getElem?_modify]
    · simp [hi]

/-- What the first loops leave at a path: a node with its entries. -/
theorem getElem?_partialNodes (paths : BTreeSet Str) :
    (partialNodes entries incl paths)[k]? =
      if k ∈ paths then
        some ((TreeNode.blank k).withEntries (nameHashes (directEntries entries incl k)))
      else none := by
  rw [partialNodes, getElem?_foldl_addEntry, getElem?_foldl_blank]
  by_cases hk : k ∈ paths
  · simp only [ExtTreeSet.mem_toList, hk, ↓reduceIte, Option.map_some, directEntries]
  · simp [hk, ExtTreeSet.mem_toList]

/-! ## The bottom-up loop -/

/-- The hashes of a family of nodes. -/
def hashesOf (nodes : BTreeMap Str TreeNode) : BTreeMap Str Hash := nodes.map fun _ n ↦ n.hash

omit [Blake3] in
theorem getElem?_hashesOf (nodes : BTreeMap Str TreeNode) (c : Str) :
    (hashesOf nodes)[c]? = nodes[c]?.map TreeNode.hash := by
  simp [hashesOf]

omit [Blake3] in
theorem hashesOf_insert (nodes : BTreeMap Str TreeNode) (c : Str) (n : TreeNode) :
    hashesOf (nodes.insert c n) = (hashesOf nodes).insert c n.hash := by
  refine ExtTreeMap.ext_getElem? fun j ↦ ?_
  rw [getElem?_hashesOf, OrdMap.getElem?_insert_eq, OrdMap.getElem?_insert_eq, getElem?_hashesOf]
  split <;> simp

omit [Blake3] in
theorem foldl_addChild (cs : List Str) (nodes : BTreeMap Str TreeNode) (m : BTreeMap Str Hash) :
    cs.foldl (addChild (hashesOf nodes)) m =
      (nodeHashes nodes cs).foldl (fun m kv ↦ m.insert kv.1 kv.2) m := by
  induction cs generalizing m with
  | nil => rfl
  | cons c cs ih =>
    rw [List.foldl_cons, ih, addChild, getElem?_hashesOf]
    cases hc : nodes[c]? with
    | none => simp [nodeHashes, hc]
    | some n => simp [nodeHashes, hc]

/-- Finishing a node collects the hashes of its children. -/
theorem finishNode_hashesOf (cs : List Str) (nodes : BTreeMap Str TreeNode) (n : TreeNode) :
    finishNode cs (hashesOf nodes) n =
      let children := ExtTreeMap.ofList (nodeHashes nodes cs)
      { n with children, hash := hashNode n.nodePrefix n.entries children } := by
  simp only [finishNode, foldl_addChild, ExtTreeMap.ofList_eq_foldl]

/-- What the bottom-up loop puts at a path. -/
def derivedNode (childrenOf : BTreeMap Str (List Str)) (partials : BTreeMap Str TreeNode)
    (nodes : BTreeMap Str TreeNode) (k : Str) : Option TreeNode :=
  partials[k]?.map (finishNode (childrenOf[k]?.getD []) (hashesOf nodes))

/-- The bottom-up loop is a pass.  While it runs, the visited nodes are those of
the pass, the others still partial, and the hashes are those of the visited. -/
theorem foldl_deriveStep (C : BTreeMap Str (List Str)) (P : BTreeMap Str TreeNode) {ks : List Str}
    (hks : ks.Nodup) {P₁ N : BTreeMap Str TreeNode} (hmem : ∀ k ∈ ks, k ∈ P)
    (hunvisited : ∀ k ∈ ks, P₁[k]? = P[k]?) (hvisited : ∀ k, k ∉ ks → P₁[k]? = N[k]?) :
    ks.foldl (deriveStep C) (P₁, hashesOf N) =
      (OrdMap.pass (derivedNode C P) N ks, hashesOf (OrdMap.pass (derivedNode C P) N ks)) := by
  induction ks generalizing P₁ N with
  | nil =>
    obtain rfl : P₁ = N := ExtTreeMap.ext_getElem? fun k ↦ hvisited k (by simp)
    rfl
  | cons j ks ih =>
    obtain ⟨hj, hks⟩ := List.nodup_cons.mp hks
    obtain ⟨n, hP⟩ : ∃ n, P[j]? = some n :=
      ⟨_, ExtTreeMap.getElem?_eq_some_getElem (hmem j List.mem_cons_self)⟩
    have hP₁ : P₁[j]? = some n := (hunvisited j List.mem_cons_self).trans hP
    have hput : OrdMap.put N j (derivedNode C P N j) =
        N.insert j (finishNode (C[j]?.getD []) (hashesOf N) n) := by
      rw [derivedNode, hP]
      rfl
    rw [List.foldl_cons, deriveStep, hP₁, OrdMap.pass, List.foldl_cons, ← OrdMap.pass, hput]
    dsimp only
    rw [← hashesOf_insert]
    refine ih hks (fun k hk ↦ hmem k (List.mem_cons_of_mem _ hk)) ?_ ?_
    · intro k hk
      have hne : j ≠ k := fun h ↦ hj (h ▸ hk)
      rw [OrdMap.getElem?_insert_eq, if_neg hne, hunvisited k (List.mem_cons_of_mem _ hk)]
    · intro k hk
      rw [OrdMap.getElem?_insert_eq, OrdMap.getElem?_insert_eq]
      split
      · rfl
      · next hne =>
        exact hvisited k (by simpa [List.mem_cons, Ne.symm hne] using hk)

omit [Blake3] in
/-- The child paths of a node. -/
theorem mem_childrenOf_iff {paths : BTreeSet Str} {c : Str} :
    c ∈ (childrenOf paths)[k]?.getD [] ↔ c ∈ paths ∧ c ≠ [] ∧ parentPath c = k := by
  rw [childrenOf, OrdMap.getD_pushUnder]
  simp only [ExtTreeMap.getElem?_empty, Option.getD_none, List.nil_append, List.mem_filter,
    ExtTreeSet.mem_toList, decide_eq_true_iff, and_assoc]

theorem readsAbove_derivedNode (paths : BTreeSet Str) (P : BTreeMap Str TreeNode) :
    OrdMap.ReadsAbove (derivedNode (childrenOf paths) P) := by
  intro m m' k h
  have hcs : nodeHashes m ((childrenOf paths)[k]?.getD []) =
      nodeHashes m' ((childrenOf paths)[k]?.getD []) := by
    refine List.filterMap_congr fun c hc ↦ ?_
    obtain ⟨-, hne, rfl⟩ := mem_childrenOf_iff.mp hc
    rw [h c (compare_parentPath hne)]
  rw [derivedNode, derivedNode]
  refine Option.map_congr fun n _ ↦ ?_
  rw [finishNode_hashesOf, finishNode_hashesOf, hcs]

section Derive

variable (entries incl)

/-- The derived tree is the result of a bottom-up pass over its paths. -/
theorem deriveTreeWith_eq_pass :
    let paths := nodePaths entries incl
    let g := derivedNode (childrenOf paths) (partialNodes entries incl paths)
    let nodes := OrdMap.pass g ∅ paths.toList.reverse
    deriveTreeWith entries incl = { rootHash := rootHashOf nodes, nodes } := by
  intro paths g nodes
  have hmem : ∀ j ∈ paths.toList.reverse, j ∈ partialNodes entries incl paths := by
    intro j hj
    rw [List.mem_reverse, ExtTreeSet.mem_toList] at hj
    rw [ExtTreeMap.mem_iff_isSome_getElem?, getElem?_partialNodes, if_pos hj]
    rfl
  have hvisited : ∀ j, j ∉ paths.toList.reverse →
      (partialNodes entries incl paths)[j]? = (∅ : BTreeMap Str TreeNode)[j]? := by
    intro j hj
    rw [List.mem_reverse, ExtTreeSet.mem_toList] at hj
    rw [getElem?_partialNodes, if_neg hj, ExtTreeMap.getElem?_empty]
  have hloop := foldl_deriveStep (childrenOf paths) (partialNodes entries incl paths)
    (OrdMap.nodup_reverse_toList paths) hmem (fun _ _ ↦ rfl) hvisited
  have hempty : hashesOf ∅ = ∅ := by
    refine ExtTreeMap.ext_getElem? fun c ↦ ?_
    simp [getElem?_hashesOf]
  rw [hempty] at hloop
  rw [deriveTreeWith]
  rw [hloop]
  dsimp only
  rw [getElem?_hashesOf]
  rfl

theorem deriveTreeWith_rootHash :
    (deriveTreeWith entries incl).rootHash = rootHashOf (deriveTreeWith entries incl).nodes := by
  rw [deriveTreeWith_eq_pass]

/-- Every derived node is put together from the included entries and the derived
nodes directly below it. -/
theorem getElem?_deriveTreeWith (k : Str) :
    (deriveTreeWith entries incl).nodes[k]? =
      if k ∈ nodePaths entries incl then
        some (TreeNode.mk' k (ExtTreeMap.ofList (nameHashes (directEntries entries incl k)))
          (ExtTreeMap.ofList (nodeHashes (deriveTreeWith entries incl).nodes
            ((childrenOf (nodePaths entries incl))[k]?.getD []))))
      else none := by
  by_cases hk : k ∈ nodePaths entries incl
  · have hk' : k ∈ (nodePaths entries incl).toList.reverse := by
      rwa [List.mem_reverse, ExtTreeSet.mem_toList]
    rw [deriveTreeWith_eq_pass, if_pos hk]
    dsimp only
    rw [OrdMap.getElem?_pass_of_mem (readsAbove_derivedNode _ _) _
      (OrdMap.pairwise_reverse_toList _) hk', derivedNode, getElem?_partialNodes, if_pos hk,
      Option.map_some, finishNode_hashesOf]
    simp only [TreeNode.mk', TreeNode.withEntries, TreeNode.blank, ExtTreeMap.ofList_eq_foldl]
  · have hk' : k ∉ (nodePaths entries incl).toList.reverse := by
      rwa [List.mem_reverse, ExtTreeSet.mem_toList]
    rw [deriveTreeWith_eq_pass, if_neg hk]
    dsimp only
    rw [OrdMap.getElem?_pass_of_notMem _ _ hk', ExtTreeMap.getElem?_empty]

variable {entries incl}

/-- The derived tree has a node for every included directory, empty or not. -/
theorem mem_deriveTreeWith_iff :
    k ∈ (deriveTreeWith entries incl).nodes ↔
      Spine entries incl k ∨ IncludedDir entries incl k := by
  rw [← mem_nodePaths_iff, ExtTreeMap.mem_iff_isSome_getElem?, getElem?_deriveTreeWith]
  by_cases hk : k ∈ nodePaths entries incl <;> simp [hk]

/-- The derived tree is a tree over the index it is derived from. -/
theorem deriveTreeWith_wellFormed (hE : Keyed entries) :
    WellFormed (deriveTreeWith entries incl) entries incl where
  mem_of_spine h := mem_deriveTreeWith_iff.mpr (Or.inl h)
  spine_or_dir h := mem_deriveTreeWith_iff.mp h
  rootHash_eq := deriveTreeWith_rootHash entries incl
  isNode := by
    intro k n hn
    rw [getElem?_deriveTreeWith] at hn
    split at hn
    · obtain rfl := Option.some.inj hn
      refine isNode_mk' hE ?_ (fun _ ↦ mem_directEntries_iff)
        (fun c hc ↦ (mem_childrenOf_iff.mp hc).2) ?_
      · intro c hc
        exact (mem_deriveTreeWith_iff.mp hc).elim (Spine.proper hE) fun hd ↦ Or.inr (hd.proper hE)
      · intro c hne hp hc
        exact mem_childrenOf_iff.mpr ⟨mem_nodePaths_iff.mpr (mem_deriveTreeWith_iff.mp hc), hne, hp⟩
    · cases hn

end Derive

end Lilsync
