import Lilsync.Sync.Chain

/-!
# What a tree lists

A snapshot that is derived, or kept up to date, lists its index: the walk over
the children from the root finds every included entry once, and every hash on
the way is that of what it stands for (`ListsExactly`).
-/

namespace Lilsync

open Std (ExtTreeMap)
open Lilsync.Lib Lilsync.Lib.SlashPath

/-- What a walk over the children finds from the node at a path: the path and the
hash of each entry. -/
def listing (nodes : BTreeMap Str TreeNode) : Nat → Str → List (Str × Hash)
  | 0, _ => []
  | fuel + 1, k =>
    match nodes[k]? with
    | none => []
    | some n =>
      (n.entries.toList.map fun (name, hash) ↦ (joinPath k name, hash)) ++
        n.children.toList.flatMap fun (name, _) ↦ listing nodes fuel (joinPath k name)

section Siblings

variable {c c' k p : Str}

/-- What is above a path is not longer than the path's parent. -/
theorem length_le_parentPath (h : Below slash c p) : c.length ≤ (parentPath p).length := by
  by_cases heq : c = parentPath p
  · rw [heq]
  · exact (h.parent_of_ne heq).length_lt.le

/-- Only one child of a directory is above a path. -/
theorem eq_of_below (hc : c ≠ []) (hc' : c' ≠ []) (hk : parentPath c = k) (hk' : parentPath c' = k)
    (h : Below slash c p) (h' : Below slash c' p) : c = c' := by
  rcases h.comparable h' with heq | hlt | hlt
  · exact heq
  · have hle := length_le_parentPath hlt
    rw [hk', ← hk] at hle
    exact absurd hle (Nat.not_le.mpr (length_parent_lt hc))
  · have hle := length_le_parentPath hlt
    rw [hk, ← hk'] at hle
    exact absurd hle (Nat.not_le.mpr (length_parent_lt hc'))

/-- A child of the directory that a path is in is not above the path. -/
theorem parentPath_ne_of_below (hc : c ≠ []) (h : Below slash c p) :
    parentPath p ≠ parentPath c := by
  intro heq
  have hle := length_le_parentPath h
  rw [heq] at hle
  exact absurd hle (Nat.not_le.mpr (length_parent_lt hc))

end Siblings

section Trees

variable [Blake3] {S : TreeSnapshot} {entries entries' : Index} {incl : Entry → Bool}

/-- An index has one entry for a path. -/
theorem nodup_included (hE : Keyed entries) :
    (((OrdMap.values entries).filter incl).map fun e ↦ (e.path, hashEntry e)).Nodup := by
  have hpaths : (OrdMap.values entries).map Entry.path = entries.keys := by
    rw [OrdMap.values, List.map_map, ← ExtTreeMap.map_fst_toList_eq_keys]
    exact List.map_congr_left fun x hx ↦
      hE.path_eq (ExtTreeMap.mem_toList_iff_getElem?_eq_some.mp hx)
  have hnodup : ((OrdMap.values entries).map Entry.path).Nodup := by
    rw [hpaths]
    exact ExtTreeMap.nodup_keys
  refine .of_map Prod.fst ?_
  rw [List.map_map]
  exact hnodup.sublist (List.filter_sublist.map _)

/-- What a node lists as children are the nodes below it. -/
theorem WellFormed.of_mem_children (hE : Keyed entries) (hS : WellFormed S entries incl) {k : Str}
    {n : TreeNode} (hn : S.nodes[k]? = some n) {name : Str} {hash : Hash}
    (h : n.children[name]? = some hash) : ∃ m, S.nodes[joinPath k name]? = some m ∧ m.hash = hash ∧
      joinPath k name ≠ [] ∧ parentPath (joinPath k name) = k ∧ basename (joinPath k name) = name := by
  obtain ⟨c, m, hne, hm, rfl, rfl, hhash⟩ := (hS.isNode hn).children_iff.mp h
  have hproper := (hS.proper hE (ExtTreeMap.mem_iff_isSome_getElem?.mpr (by simp [hm]))).resolve_left
    hne
  rw [joinPath_parent_base hproper]
  exact ⟨m, hm, hhash, hne, rfl, rfl⟩

/-- What a node lists as entries are the included entries in its directory. -/
theorem WellFormed.of_mem_entries (hE : Keyed entries) (hS : WellFormed S entries incl) {k : Str}
    {n : TreeNode} (hn : S.nodes[k]? = some n) {name : Str} {hash : Hash}
    (h : n.entries[name]? = some hash) : ∃ e, Included entries incl e ∧ parentPath e.path = k ∧
      basename e.path = name ∧ e.path = joinPath k name ∧ hashEntry e = hash := by
  obtain ⟨e, he, rfl, rfl, hhash⟩ := (hS.isNode hn).entries_iff.mp h
  exact ⟨e, he, rfl, rfl, (joinPath_parent_base (he.proper hE)).symm, hhash⟩

/-- A walk from a node finds the included entries below it. -/
theorem mem_listing_iff (hE : Keyed entries) (hS : WellFormed S entries incl) {x : Str × Hash}
    (fuel : Nat) {k : Str} (hk : k ∈ S.nodes) (hfuel : ∀ c ∈ S.nodes, c.length < k.length + fuel) :
    x ∈ listing S.nodes fuel k ↔
      ∃ e, Included entries incl e ∧ k ∈ ancestors e.path ∧ x = (e.path, hashEntry e) := by
  induction fuel generalizing k with
  | zero => exact absurd (hfuel k hk) (Nat.lt_irrefl _)
  | succ fuel ih =>
    have hn := ExtTreeMap.getElem?_eq_some_getElem hk
    rw [listing, hn]
    dsimp only
    -- the walk from a child has fuel enough
    have hchild {c : Str} (hc : c ∈ S.nodes) (hne : c ≠ []) (hparent : parentPath c = k) :
        x ∈ listing S.nodes fuel c ↔
          ∃ e, Included entries incl e ∧ c ∈ ancestors e.path ∧ x = (e.path, hashEntry e) := by
      refine ih hc fun d hd ↦ ?_
      have hlt : (parentPath c).length < c.length := length_parent_lt hne
      have := hfuel d hd
      rw [hparent] at hlt
      omega
    rw [List.mem_append]
    constructor
    · rintro (hx | hx)
      · obtain ⟨⟨name, hash⟩, hmem, rfl⟩ := List.mem_map.mp hx
        obtain ⟨e, he, hparent, -, hpath, hhash⟩ :=
          hS.of_mem_entries hE hn (ExtTreeMap.mem_toList_iff_getElem?_eq_some.mp hmem)
        refine ⟨e, he, hparent ▸ parent_mem_ancestors e.path, ?_⟩
        rw [hpath, hhash]
      · obtain ⟨⟨name, hash⟩, hmem, hx⟩ := List.mem_flatMap.mp hx
        obtain ⟨m, hm, -, hne, hparent, -⟩ :=
          hS.of_mem_children hE hn (ExtTreeMap.mem_toList_iff_getElem?_eq_some.mp hmem)
        have hc : joinPath k name ∈ S.nodes := ExtTreeMap.mem_iff_isSome_getElem?.mpr (by simp [hm])
        obtain ⟨e, he, hanc, rfl⟩ := (hchild hc hne hparent).mp hx
        exact ⟨e, he, hparent ▸ parent_mem_ancestors_of_mem hanc, rfl⟩
    · rintro ⟨e, he, hanc, rfl⟩
      by_cases hparent : parentPath e.path = k
      · refine .inl (List.mem_map.mpr ⟨(basename e.path, hashEntry e),
          ExtTreeMap.mem_toList_iff_getElem?_eq_some.mpr ?_, ?_⟩)
        · exact (hS.isNode hn).entries_iff.mpr ⟨e, he, hparent, rfl, rfl⟩
        · rw [← hparent, joinPath_parent_base (he.proper hE)]
      · obtain ⟨c, hne, hc, hbelow⟩ := exists_child_of_mem_ancestors hanc hparent
        have hmem := hS.mem_of_spine (.inr ⟨e, he, hbelow⟩)
        have hm := ExtTreeMap.getElem?_eq_some_getElem hmem
        have hproper := (he.proper hE).of_below hbelow
        refine .inr (List.mem_flatMap.mpr ⟨(basename c, S.nodes[c].hash),
          ExtTreeMap.mem_toList_iff_getElem?_eq_some.mpr ?_, ?_⟩)
        · exact (hS.isNode hn).children_iff.mpr ⟨c, _, hne, hm, hc, rfl, rfl⟩
        · have hjoin : joinPath k (basename c) = c := by
            rw [← hc]
            exact joinPath_parent_base hproper
          rw [hjoin]
          exact (hchild hmem hne hc).mpr ⟨e, he, mem_ancestors_iff.mpr (.inr hbelow), rfl⟩

/-- A walk finds nothing twice. -/
theorem nodup_listing (hE : Keyed entries) (hS : WellFormed S entries incl) (fuel : Nat) {k : Str}
    (hk : k ∈ S.nodes) (hfuel : ∀ c ∈ S.nodes, c.length < k.length + fuel) :
    (listing S.nodes fuel k).Nodup := by
  induction fuel generalizing k with
  | zero => exact List.nodup_nil
  | succ fuel ih =>
    have hn := ExtTreeMap.getElem?_eq_some_getElem hk
    rw [listing, hn]
    dsimp only
    -- what a child is, and what is found from it
    have hchild {item : Str × Hash} (hmem : item ∈ S.nodes[k].children.toList) :
        joinPath k item.1 ∈ S.nodes ∧ joinPath k item.1 ≠ [] ∧ parentPath (joinPath k item.1) = k ∧
          basename (joinPath k item.1) = item.1 ∧
          ∀ c ∈ S.nodes, c.length < (joinPath k item.1).length + fuel := by
      obtain ⟨m, hm, -, hne, hparent, hbase⟩ :=
        hS.of_mem_children hE hn (ExtTreeMap.mem_toList_iff_getElem?_eq_some.mp hmem)
      refine ⟨ExtTreeMap.mem_iff_isSome_getElem?.mpr (by simp [hm]), hne, hparent, hbase,
        fun c hc ↦ ?_⟩
      have hlt : (parentPath (joinPath k item.1)).length < (joinPath k item.1).length :=
        length_parent_lt hne
      have := hfuel c hc
      rw [hparent] at hlt
      omega
    have hbelow {item : Str × Hash} (hmem : item ∈ S.nodes[k].children.toList) {x : Str × Hash}
        (hx : x ∈ listing S.nodes fuel (joinPath k item.1)) : Below slash (joinPath k item.1) x.1 := by
      obtain ⟨hc, hne, -, -, hlen⟩ := hchild hmem
      obtain ⟨e, -, hanc, rfl⟩ := (mem_listing_iff hE hS fuel hc hlen).mp hx
      exact (mem_ancestors_iff.mp hanc).resolve_left hne
    refine List.nodup_append.mpr ⟨?_, List.nodup_flatMap.mpr ⟨fun item hmem ↦ ?_, ?_⟩, ?_⟩
    · refine List.pairwise_map.mpr (ExtTreeMap.distinct_keys_toList.imp_of_mem fun ha hb hne heq ↦ ?_)
      obtain ⟨e, -, -, hname, hpath, -⟩ :=
        hS.of_mem_entries hE hn (ExtTreeMap.mem_toList_iff_getElem?_eq_some.mp ha)
      obtain ⟨e', -, -, hname', hpath', -⟩ :=
        hS.of_mem_entries hE hn (ExtTreeMap.mem_toList_iff_getElem?_eq_some.mp hb)
      refine hne (Std.compare_eq_iff_eq.mpr ?_)
      rw [← hname, ← hname', hpath, hpath', (Prod.mk.inj heq).1]
    · obtain ⟨hc, -, -, -, hlen⟩ := hchild hmem
      exact ih hc hlen
    · refine ExtTreeMap.distinct_keys_toList.imp_of_mem fun ha hb hne x hx hx' ↦ ?_
      obtain ⟨-, hnil, hparent, hbase, -⟩ := hchild ha
      obtain ⟨-, hnil', hparent', hbase', -⟩ := hchild hb
      refine hne (Std.compare_eq_iff_eq.mpr ?_)
      rw [← hbase, ← hbase', eq_of_below hnil hnil' hparent hparent' (hbelow ha hx) (hbelow hb hx')]
    · intro x hx y hy heq
      obtain ⟨⟨name, hash⟩, hmem, rfl⟩ := List.mem_map.mp hx
      obtain ⟨item, hitem, hy⟩ := List.mem_flatMap.mp hy
      obtain ⟨e, -, hparent, -, hpath, -⟩ :=
        hS.of_mem_entries hE hn (ExtTreeMap.mem_toList_iff_getElem?_eq_some.mp hmem)
      obtain ⟨-, hnil, hparent', -, -⟩ := hchild hitem
      have hb := hbelow hitem hy
      rw [← heq, ← hpath] at hb
      exact parentPath_ne_of_below hnil hb (hparent.trans hparent'.symm)

/-- A snapshot in which every hash is that of what it stands for, and which lists
the included entries of the index. -/
structure ListsExactly (S : TreeSnapshot) (entries : Index) (incl : Entry → Bool) : Prop where
  wellFormed : WellFormed S entries incl
  hash_eq : ∀ (k : Str) n, S.nodes[k]? = some n → n.hash = treeNodeHash n
  child : ∀ (k : Str) n (name : Str) hash, S.nodes[k]? = some n → n.children[name]? = some hash →
    ∃ m, S.nodes[joinPath k name]? = some m ∧ m.hash = hash
  listed : ∀ (k : Str) n, S.nodes[k]? = some n → k ≠ [] →
    ∃ m, S.nodes[parentPath k]? = some m ∧ m.children[basename k]? = some n.hash
  listing_perm : ∀ fuel, (∀ k ∈ S.nodes, k.length < fuel) → (listing S.nodes fuel []).Perm
    (((OrdMap.values entries).filter incl).map fun e ↦ (e.path, hashEntry e))
  rootHash_eq : ∃ n, S.nodes[([] : Str)]? = some n ∧ S.rootHash = n.hash

theorem WellFormed.listsExactly (hE : Keyed entries) (hS : WellFormed S entries incl) :
    ListsExactly S entries incl where
  wellFormed := hS
  hash_eq _ _ hn := (hS.isNode hn).hash_eq
  child _ _ _ _ hn hc := by
    obtain ⟨m, hm, hhash, -⟩ := hS.of_mem_children hE hn hc
    exact ⟨m, hm, hhash⟩
  listed k n hn hne := by
    have hk : k ∈ S.nodes := ExtTreeMap.mem_iff_isSome_getElem?.mpr (by simp [hn])
    have hparent : parentPath k ∈ S.nodes := by
      rcases mem_ancestors_iff.mp (parent_mem_ancestors k) with heq | hb
      · rw [parentPath, heq]
        exact hS.root_mem
      · exact hS.mem_of_below hk hb
    have hm := ExtTreeMap.getElem?_eq_some_getElem hparent
    exact ⟨_, hm, (hS.isNode hm).children_iff.mpr ⟨k, n, hne, hn, rfl, rfl, rfl⟩⟩
  listing_perm fuel hfuel := by
    have hfuel' : ∀ c ∈ S.nodes, c.length < ([] : Str).length + fuel := by simpa using hfuel
    refine (List.perm_ext_iff_of_nodup (nodup_listing hE hS fuel hS.root_mem hfuel')
      (nodup_included hE)).mpr fun x ↦ ?_
    rw [mem_listing_iff hE hS fuel hS.root_mem hfuel', List.mem_map]
    simp only [mem_filter_values_iff]
    exact exists_congr fun e ↦ and_congr_right fun _ ↦
      ⟨fun h ↦ h.2.symm, fun h ↦ ⟨nil_mem_ancestors e.path, h.symm⟩⟩
  rootHash_eq := by
    have hn := ExtTreeMap.getElem?_eq_some_getElem hS.root_mem
    refine ⟨_, hn, ?_⟩
    rw [hS.rootHash_eq, rootHashOf, hn]
    rfl

/-- Deriving builds a snapshot that lists its index, and an update for all
differences keeps it one. -/
theorem lists_derive_and_update :
    (∀ (entries : Index) (incl : Entry → Bool), Keyed entries →
      ListsExactly (deriveTreeWith entries incl) entries incl) ∧
    ∀ (S : TreeSnapshot) (entries entries' : Index) (changedPaths : List Str)
      (incl : Entry → Bool), Keyed entries → Keyed entries' → Covers entries entries' changedPaths →
      ListsExactly S entries incl →
        ListsExactly (updateTreeSnapshot S entries' changedPaths incl) entries' incl :=
  ⟨fun _ _ hE ↦ (deriveTreeWith_wellFormed hE).listsExactly hE, fun _ _ _ _ _ hE hE' hcov hS ↦
    (updateTreeSnapshot_wellFormed hE hE' hS.wellFormed hcov).listsExactly hE'⟩

omit [Blake3] in
theorem lists_derive_and_update_oneFile :
    letI : Blake3 := Blake3.reference
    let f : Entry := ⟨lit "f", .file, some zeroHash, none, 3, some 0o644, ⟨1, lit "a"⟩⟩
    let g : Entry := ⟨lit "d/g", .tombstone, none, none, 0, none, ⟨2, lit "b"⟩⟩
    ListsExactly (updateTreeSnapshot (deriveTreeWith (indexOf [f]) inclAll) (indexOf [f, g])
      [lit "d/g"] inclAll) (indexOf [f, g]) inclAll := by
  let _ : Blake3 := Blake3.reference
  intro f g
  exact lists_derive_and_update.2 _ (indexOf [f]) _ _ _ (by decide +kernel) (by decide +kernel)
    (by decide +kernel) (lists_derive_and_update.1 _ _ (by decide +kernel))

end Trees

end Lilsync
