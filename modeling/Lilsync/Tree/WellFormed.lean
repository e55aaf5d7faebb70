import Lilsync.Tree

/-!
# Well-formed trees

What a tree that matches an index looks like.  There must be a node for the
root and for every directory an included entry lies in; there may be one for an
included directory with nothing in it; and every node holds exactly the hashes
of the entries and of the nodes directly below it (`WellFormed`).

Two well-formed trees over one index can differ only in the nodes they have
(`WellFormed.eq_of_mem_iff`).  The tree derived from scratch is the well-formed
one with a node for *every* included directory (`deriveTreeWith_wellFormed`,
`mem_deriveTreeWith_iff`).
-/

namespace Lilsync

open Std (ExtTreeMap)
open Lilsync.Lib Lilsync.Lib.SlashPath

/-! ## Indexes -/

/-- An index whose keys are the paths of its entries and are made of non-empty
components. -/
structure Keyed (entries : Index) : Prop where
  path_eq : ∀ {k : Str} {e : Entry}, entries[k]? = some e → e.path = k
  proper : ∀ {k : Str} {e : Entry}, entries[k]? = some e → Proper slash k

/-- The index holds the entry and the filter lets it through. -/
def Included (entries : Index) (incl : Entry → Bool) (e : Entry) : Prop :=
  (∃ k : Str, entries[k]? = some e) ∧ incl e

/-- The root, or a directory some included entry lies in. -/
def Spine (entries : Index) (incl : Entry → Bool) (k : Str) : Prop :=
  k = [] ∨ ∃ e, Included entries incl e ∧ Below slash k e.path

/-- An included directory. -/
def IncludedDir (entries : Index) (incl : Entry → Bool) (k : Str) : Prop :=
  ∃ e, Included entries incl e ∧ e.kind = .dir ∧ e.path = k

section Index

variable {entries : Index} {incl : Entry → Bool} {e e' : Entry} {k : Str}

theorem mem_filter_values_iff :
    e ∈ (OrdMap.values entries).filter incl ↔ Included entries incl e := by
  rw [List.mem_filter, OrdMap.mem_values_iff, Included]

theorem Included.getElem? (hE : Keyed entries) (h : Included entries incl e) :
    entries[e.path]? = some e := by
  obtain ⟨⟨k, hk⟩, -⟩ := h
  rwa [hE.path_eq hk]

theorem Included.proper (hE : Keyed entries) (h : Included entries incl e) :
    Proper slash e.path := hE.proper (h.getElem? hE)

/-- At most one included entry has a given parent and a given name. -/
theorem Included.eq_of_parent_base (hE : Keyed entries) (h : Included entries incl e)
    (h' : Included entries incl e') (hp : parentPath e.path = parentPath e'.path)
    (hb : basename e.path = basename e'.path) : e = e' := by
  have hpath : e.path = e'.path := Proper.eq_of_parent_base (h.proper hE) (h'.proper hE) hp hb
  have := h.getElem? hE
  rw [hpath, h'.getElem? hE] at this
  exact (Option.some.inj this).symm

/-- The ancestors of an included entry are on the spine. -/
theorem Included.spine (h : Included entries incl e) (hk : k ∈ ancestors e.path) :
    Spine entries incl k := by
  rcases mem_ancestors_iff.mp hk with rfl | hk
  · exact Or.inl rfl
  · exact Or.inr ⟨e, h, hk⟩

theorem Spine.of_below (h : Spine entries incl k) {a : Str} (ha : Below slash a k) :
    Spine entries incl a := by
  rcases h with rfl | ⟨e, he, hk⟩
  · exact absurd rfl ha.ne_nil
  · exact Or.inr ⟨e, he, ha.trans hk⟩

theorem Spine.of_mem_ancestors (h : Spine entries incl k) {a : Str} (ha : a ∈ ancestors k) :
    Spine entries incl a :=
  (mem_ancestors_iff.mp ha).elim Or.inl h.of_below

/-- Directories with something in them are on the spine. -/
theorem spine_iff_mem_ancestors :
    Spine entries incl k ↔ k = [] ∨ ∃ e, Included entries incl e ∧ k ∈ ancestors e.path := by
  constructor
  · rintro (h | ⟨e, he, h⟩)
    · exact Or.inl h
    · exact Or.inr ⟨e, he, mem_ancestors_iff.mpr (Or.inr h)⟩
  · rintro (h | ⟨e, he, h⟩)
    · exact Or.inl h
    · exact he.spine h

/-- Paths on the spine other than the root are proper. -/
theorem Spine.proper (hE : Keyed entries) (h : Spine entries incl k) :
    k = [] ∨ Proper slash k :=
  h.imp id fun ⟨_, he, hk⟩ ↦ (he.proper hE).of_below hk

theorem IncludedDir.proper (hE : Keyed entries) (h : IncludedDir entries incl k) :
    Proper slash k := by
  obtain ⟨e, he, -, rfl⟩ := h
  exact he.proper hE

end Index

/-! ## Well-formed snapshots -/

variable [Blake3]

/-- The node that belongs at a path: the entries and the nodes directly below
it with their hashes, and the hash of all that. -/
structure IsNode (nodes : BTreeMap Str TreeNode) (entries : Index) (incl : Entry → Bool)
    (k : Str) (n : TreeNode) : Prop where
  prefix_eq : n.nodePrefix = displayPrefix k
  entries_iff : ∀ {name h}, n.entries[name]? = some h ↔
    ∃ e, Included entries incl e ∧ parentPath e.path = k ∧ basename e.path = name ∧
      hashEntry e = h
  children_iff : ∀ {name h}, n.children[name]? = some h ↔
    ∃ c m, c ≠ [] ∧ nodes[c]? = some m ∧ parentPath c = k ∧ basename c = name ∧ m.hash = h
  hash_eq : n.hash = hashNode n.nodePrefix n.entries n.children

/-- The snapshot is a tree over the included entries of the index. -/
structure WellFormed (S : TreeSnapshot) (entries : Index) (incl : Entry → Bool) : Prop where
  mem_of_spine : ∀ {k : Str}, Spine entries incl k → k ∈ S.nodes
  spine_or_dir : ∀ {k : Str}, k ∈ S.nodes → Spine entries incl k ∨ IncludedDir entries incl k
  isNode : ∀ {k : Str} {n}, S.nodes[k]? = some n → IsNode S.nodes entries incl k n
  rootHash_eq : S.rootHash = rootHashOf S.nodes

namespace WellFormed

variable {S S' : TreeSnapshot} {entries : Index} {incl : Entry → Bool} {k : Str}

theorem root_mem (h : WellFormed S entries incl) : ([] : Str) ∈ S.nodes :=
  h.mem_of_spine (Or.inl rfl)

/-- The nodes of a well-formed tree are at proper paths, the root aside. -/
theorem proper (hE : Keyed entries) (h : WellFormed S entries incl) (hk : k ∈ S.nodes) :
    k = [] ∨ Proper slash k :=
  (h.spine_or_dir hk).elim (Spine.proper hE) fun hd ↦ Or.inr (hd.proper hE)

/-- Every ancestor of a node is a node. -/
theorem mem_of_below (h : WellFormed S entries incl) (hk : k ∈ S.nodes) {a : Str}
    (ha : Below slash a k) : a ∈ S.nodes := by
  rcases h.spine_or_dir hk with hs | ⟨e, he, -, rfl⟩
  · exact h.mem_of_spine (hs.of_below ha)
  · exact h.mem_of_spine (Or.inr ⟨e, he, ha⟩)

end WellFormed

omit [Blake3] in
/-- A set of nodes has a bound on the lengths of their paths. -/
theorem exists_length_le (nodes : BTreeMap Str TreeNode) :
    ∃ L, ∀ k : Str, k ∈ nodes → k.length ≤ L :=
  ⟨(nodes.keys.map List.length).max?.getD 0, fun _ hk ↦
    List.le_max?_getD_of_mem (List.mem_map_of_mem (ExtTreeMap.mem_keys.mpr hk))⟩

/-- The node at a path is determined by the nodes with longer paths. -/
theorem IsNode.eq_of_longer {nodes nodes' : BTreeMap Str TreeNode} {entries : Index}
    {incl : Entry → Bool} {k : Str} {n n' : TreeNode} (h : IsNode nodes entries incl k n)
    (h' : IsNode nodes' entries incl k n')
    (hlt : ∀ c : Str, k.length < c.length → nodes[c]? = nodes'[c]?) : n = n' := by
  have hentries : n.entries = n'.entries :=
    OrdMap.ext_graph fun _ _ ↦ h.entries_iff.trans h'.entries_iff.symm
  have hchildren : n.children = n'.children := by
    refine OrdMap.ext_graph fun name hash ↦ h.children_iff.trans (.trans ?_ h'.children_iff.symm)
    refine exists_congr fun c ↦ exists_congr fun m ↦ ?_
    by_cases hc : c ≠ [] ∧ parentPath c = k
    · rw [hlt c (hc.2 ▸ length_parent_lt hc.1)]
    · tauto
  have hprefix : n.nodePrefix = n'.nodePrefix := h.prefix_eq.trans h'.prefix_eq.symm
  have hhash : n.hash = n'.hash := by
    rw [h.hash_eq, h'.hash_eq, hprefix, hentries, hchildren]
  cases n
  cases n'
  simp_all

/-- Two families of nodes, each node right for its own family, are equal once
they have the same paths: the hash of a node is determined by those below it. -/
theorem nodes_ext {nodes nodes' : BTreeMap Str TreeNode} {entries : Index} {incl : Entry → Bool}
    (hn : ∀ {k : Str} {n}, nodes[k]? = some n → IsNode nodes entries incl k n)
    (hn' : ∀ {k : Str} {n}, nodes'[k]? = some n → IsNode nodes' entries incl k n)
    (hmem : ∀ k : Str, k ∈ nodes ↔ k ∈ nodes') : nodes = nodes' := by
  obtain ⟨L, hL⟩ := exists_length_le nodes
  -- Longest paths first: there are no nodes beyond length `L`.
  have key : ∀ d (k : Str), L < k.length + d → nodes[k]? = nodes'[k]? := by
    intro d
    induction d with
    | zero =>
      intro k hk
      have hk' : k ∉ nodes := fun h ↦ absurd (hL k h) (Nat.not_le_of_lt hk)
      rw [ExtTreeMap.getElem?_eq_none hk', ExtTreeMap.getElem?_eq_none (mt (hmem k).mpr hk')]
    | succ d ih =>
      intro k hk
      by_cases hk' : k ∈ nodes
      · have h := ExtTreeMap.getElem?_eq_some_getElem hk'
        have h' := ExtTreeMap.getElem?_eq_some_getElem ((hmem k).mp hk')
        rw [h, h', (hn h).eq_of_longer (hn' h') fun c hc ↦ ih c (by omega)]
      · rw [ExtTreeMap.getElem?_eq_none hk', ExtTreeMap.getElem?_eq_none (mt (hmem k).mpr hk')]
  exact ExtTreeMap.ext_getElem? fun k ↦ key (L + 1) k (by omega)

/-- Two well-formed trees over one index are equal once they have the same nodes. -/
theorem WellFormed.eq_of_mem_iff {S S' : TreeSnapshot} {entries : Index} {incl : Entry → Bool}
    (h : WellFormed S entries incl) (h' : WellFormed S' entries incl)
    (hmem : ∀ k : Str, k ∈ S.nodes ↔ k ∈ S'.nodes) : S = S' := by
  have hnodes : S.nodes = S'.nodes := nodes_ext h.isNode h'.isNode hmem
  have hroot : S.rootHash = S'.rootHash := by rw [h.rootHash_eq, h'.rootHash_eq, hnodes]
  cases S
  cases S'
  simp_all

/-! ## Order of parents and children -/

omit [Blake3] in
/-- Parents come before their children in the order of the keys. -/
theorem compare_parentPath {c : Str} (hc : c ≠ []) : compare (parentPath c) c = .lt := by
  have key : ∀ a b : Str, b ≠ [] → compare a (a ++ b) = .lt := by
    intro a b hb
    induction a with
    | nil => cases b with
      | nil => exact absurd rfl hb
      | cons x b => rfl
    | cons x a ih =>
      rw [List.cons_append, List.compare_cons_cons, Std.compare_self, ih]
      rfl
  rcases parent_base_cases slash c with ⟨-, hp, -⟩ | ⟨hp, -⟩
  · rw [parentPath, hp]
    exact key [] c hc
  · conv_lhs => arg 2; rw [hp]
    exact key _ _ (by simp)

/-! ## Contents of a node, as the loops collect them -/

/-- The name and the hash of each entry of a list. -/
def nameHashes (l : List Entry) : List (Str × Hash) := l.map fun e ↦ (basename e.path, hashEntry e)

/-- The name of each path of a list with the hash of the node there. -/
def nodeHashes (nodes : BTreeMap Str TreeNode) (l : List Str) : List (Str × Hash) :=
  l.filterMap fun c ↦ nodes[c]?.map fun n ↦ (basename c, n.hash)

/-- Included entries with one parent have different names, so collecting them
loses none. -/
theorem nameHashes_functional {entries : Index} {incl : Entry → Bool} {l : List Entry} {k : Str}
    (hE : Keyed entries) (hl : ∀ e ∈ l, Included entries incl e ∧ parentPath e.path = k) :
    OrdMap.Functional (nameHashes l) := by
  intro name h h' hh hh'
  obtain ⟨e, he, heq⟩ := List.mem_map.mp hh
  obtain ⟨e', he', heq'⟩ := List.mem_map.mp hh'
  simp only [Prod.mk.injEq] at heq heq'
  have := (hl e he).1.eq_of_parent_base hE (hl e' he').1
    ((hl e he).2.trans (hl e' he').2.symm) (heq.1.trans heq'.1.symm)
  rw [← heq.2, ← heq'.2, this]

omit [Blake3] in
/-- Nodes with one parent have different names, so collecting them loses none. -/
theorem nodeHashes_functional {nodes : BTreeMap Str TreeNode} {l : List Str} {k : Str}
    (hproper : ∀ c : Str, c ∈ nodes → c = [] ∨ Proper slash c)
    (hl : ∀ c ∈ l, c ≠ [] ∧ parentPath c = k) :
    OrdMap.Functional (nodeHashes nodes l) := by
  intro name h h' hh hh'
  obtain ⟨c, hc, heq⟩ := List.mem_filterMap.mp hh
  obtain ⟨c', hc', heq'⟩ := List.mem_filterMap.mp hh'
  obtain ⟨n, hn, heq⟩ := Option.map_eq_some_iff.mp heq
  obtain ⟨n', hn', heq'⟩ := Option.map_eq_some_iff.mp heq'
  simp only [Prod.mk.injEq] at heq heq'
  have hp : Proper slash c := (hproper c (ExtTreeMap.mem_iff_isSome_getElem?.mpr
    (by simp [hn]))).resolve_left (hl c hc).1
  have hp' : Proper slash c' := (hproper c' (ExtTreeMap.mem_iff_isSome_getElem?.mpr
    (by simp [hn']))).resolve_left (hl c' hc').1
  obtain rfl : c = c' := hp.eq_of_parent_base hp' ((hl c hc).2.trans (hl c' hc').2.symm)
    (heq.1.trans heq'.1.symm)
  rw [hn] at hn'
  rw [← heq.2, ← heq'.2, Option.some.inj hn']

/-- A node put together from the right lists is the right node. -/
theorem isNode_mk' {nodes : BTreeMap Str TreeNode} {entries : Index} {incl : Entry → Bool}
    {k : Str} {es : List Entry} {cs : List Str} (hE : Keyed entries)
    (hproper : ∀ c : Str, c ∈ nodes → c = [] ∨ Proper slash c)
    (hes : ∀ e, e ∈ es ↔ Included entries incl e ∧ parentPath e.path = k)
    (hcs : ∀ c ∈ cs, c ≠ [] ∧ parentPath c = k)
    (hcs' : ∀ c, c ≠ [] → parentPath c = k → c ∈ nodes → c ∈ cs) :
    IsNode nodes entries incl k (TreeNode.mk' k (ExtTreeMap.ofList (nameHashes es))
      (ExtTreeMap.ofList (nodeHashes nodes cs))) where
  prefix_eq := rfl
  hash_eq := rfl
  entries_iff := by
    intro name h
    refine (OrdMap.getElem?_ofList_iff (nameHashes_functional hE fun e he ↦ (hes e).mp he)).trans ?_
    simp only [nameHashes, List.mem_map, Prod.mk.injEq, hes, and_assoc]
  children_iff := by
    intro name h
    refine (OrdMap.getElem?_ofList_iff (nodeHashes_functional hproper hcs)).trans ?_
    simp only [nodeHashes, List.mem_filterMap, Option.map_eq_some_iff, Prod.mk.injEq]
    constructor
    · rintro ⟨c, hc, m, hm, hb, hh⟩
      exact ⟨c, m, (hcs c hc).1, hm, (hcs c hc).2, hb, hh⟩
    · rintro ⟨c, m, hne, hm, hp, hb, hh⟩
      exact ⟨c, hcs' c hne hp (ExtTreeMap.mem_iff_isSome_getElem?.mpr (by simp [hm])),
        m, hm, hb, hh⟩

end Lilsync
