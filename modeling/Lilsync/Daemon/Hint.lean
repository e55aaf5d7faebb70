import Lilsync.Daemon.Reports
import Lilsync.Message
import Lilsync.State.Batch
import Lilsync.Sync.Chain
import Lilsync.Sync.Download

/-!
# Hints

`build_tree_hint`: with the announcement of a change go the nodes above the changed
paths, parents before children, as many as fit.  A peer that has the tree from before
the change then finds in a hint that was not cut off every node that it has to visit.

How long an announcement gets when it is serialized is left open.
-/

namespace Lilsync

open Std (ExtTreeMap ExtTreeSet)
open Lilsync.Lib Lilsync.Lib.Proc Lilsync.Lib.SlashPath

/-- `MAX_FILESYSTEM_CHANGED_BYTES`. -/
def maxFilesystemChangedBytes : Nat := 3000

/-! ## Prefixes -/

/-- `push_hint_prefix`. -/
def pushHintPrefix (st : List Str × BTreeSet Str) (pfx : Str) : List Str × BTreeSet Str :=
  let normalized := normalizePrefix pfx
  if normalized ∈ st.2 then st else (st.1 ++ [normalized], st.2.insert normalized)

/-- `path_prefixes`. -/
def pathPrefixes (path : Str) : List Str :=
  let parts := ((normalizePrefix path).splitOn slash).filter (· ≠ [])
  (List.range parts.length).map fun i ↦ [slash].intercalate (parts.take (i + 1))

/-- The root and the prefixes of the changed paths, each of them once. -/
def hintPrefixes (changes : List Change) : List Str :=
  (changes.foldl (fun st change ↦ (pathPrefixes change.path).foldl pushHintPrefix st)
    (pushHintPrefix ([], ∅) [])).1

/-! ## The hint -/

section Build

variable (toBytes : GossipMessage → List UInt8)

/-- `filesystem_changed_len`. -/
def filesystemChangedLen (snapshot : RootReport) (origin : Str) (hint : Option SentHint) : Nat :=
  (toBytes (.filesystemChanged origin snapshot.stateRoot snapshot.liveRoot snapshot.lamport
    hint)).length

/-- The loop of `build_tree_hint`. -/
def hintLoop (len : SentHint → Nat) (node : Str → Option TreeNode) :
    List Str → SentHint → SentHint
  | [], hint => hint
  | pfx :: prefixes, hint =>
    match node pfx with
    | none => hintLoop len node prefixes hint
    | some node' =>
      let candidate := { hint with nodes := hint.nodes ++ [node'] }
      if len candidate ≤ maxFilesystemChangedBytes then hintLoop len node prefixes candidate
      else { hint with truncated := true }

/-- `build_tree_hint`. -/
def buildTreeHint (folder : FolderState) (changes : List Change) (snapshot : RootReport)
    (origin : Str) : Option SentHint :=
  let hint := hintLoop (fun hint ↦ filesystemChangedLen toBytes snapshot origin (some hint))
    folder.node (hintPrefixes changes) ⟨⟨[]⟩, false⟩
  if hint.nodes = [] then none else some hint

end Build

/-! ## What the prefixes are -/

section Prefixes

variable {path k a b : Str}

theorem pathPrefixes_of_proper (h : Proper slash path) :
    pathPrefixes path = (List.range (path.splitOn slash).length).map fun i ↦
      [slash].intercalate ((path.splitOn slash).take (i + 1)) := by
  have hparts : (path.splitOn slash).filter (· ≠ []) = path.splitOn slash :=
    List.filter_eq_self.mpr fun name hname ↦ by simpa using h name hname
  rw [pathPrefixes, normalizePrefix_of_proper h, hparts]

/-- The prefixes of a path are those of its parent and the path itself. -/
theorem pathPrefixes_of_mem (h : Proper slash path) (hs : slash ∈ path) :
    pathPrefixes path = pathPrefixes (parentPath path) ++ [path] := by
  obtain ⟨hp, hb⟩ := (parent_base_cases slash path).resolve_left fun hno ↦ hno.1 hs
  have hsplit : path.splitOn slash =
      (parentPath path).splitOn slash ++ [base slash path] := by
    rw [parentPath]
    conv_lhs => rw [hp]
    rw [List.splitOn_append_cons_self, List.splitOn_eq_singleton hb]
  have hparent : Proper slash (parentPath path) := h.of_below (below_parent hs)
  have hwhole : [slash].intercalate (path.splitOn slash) = path := List.intercalate_splitOn slash
  rw [hsplit] at hwhole
  rw [pathPrefixes_of_proper h, pathPrefixes_of_proper hparent, hsplit, List.length_append,
    List.length_singleton, List.range_succ, List.map_append, List.map_singleton]
  refine congrArg₂ (· ++ ·) (List.map_congr_left fun i hi ↦ ?_) ?_
  · rw [List.take_append_of_le_length (List.mem_range.mp hi)]
  · rw [List.take_of_length_le (by simp), hwhole]

theorem pathPrefixes_of_notMem (h : slash ∉ path) (hne : path ≠ []) :
    pathPrefixes path = [path] := by
  rw [pathPrefixes_of_proper (proper_of_notMem h hne), List.splitOn_eq_singleton h]
  simp [List.range_succ, List.intercalate]

/-- The ancestors of what is listed are listed before it. -/
def AncestorsFirst (prefixes : List Str) : Prop :=
  ∀ before k after, prefixes = before ++ k :: after → ∀ a ∈ ancestors k, a ≠ k → a ∈ before

theorem AncestorsFirst.concat {prefixes : List Str} (h : AncestorsFirst prefixes)
    (hk : ∀ a ∈ ancestors k, a ≠ k → a ∈ prefixes) : AncestorsFirst (prefixes ++ [k]) := by
  intro before k' after heq a ha hne
  rcases List.eq_nil_or_concat' after with rfl | ⟨after', last, rfl⟩
  · obtain ⟨rfl, hlast⟩ := List.append_inj' heq rfl
    obtain rfl := List.head_eq_of_cons_eq hlast
    exact hk a ha hne
  · rw [← List.cons_append, ← List.append_assoc] at heq
    obtain ⟨rfl, -⟩ := List.append_inj' heq rfl
    exact h before k' after' rfl a ha hne

/-- The list and the set agree, and ancestors come first. -/
structure Pushed (st : List Str × BTreeSet Str) : Prop where
  mem_iff : ∀ k, k ∈ st.2 ↔ k ∈ st.1
  nodup : st.1.Nodup
  nil_mem : [] ∈ st.1
  ancestorsFirst : AncestorsFirst st.1

variable {st : List Str × BTreeSet Str}

theorem Pushed.push (h : Pushed st) (hk : Proper slash k)
    (hanc : ∀ a, Below slash a k → a ∈ st.1) : Pushed (pushHintPrefix st k) ∧
      ∀ k', k' ∈ (pushHintPrefix st k).1 ↔ k' ∈ st.1 ∨ k' = k := by
  rw [pushHintPrefix, normalizePrefix_of_proper hk]
  split
  · next hmem =>
    refine ⟨h, fun k' ↦ ⟨.inl, fun hk' ↦ hk'.elim id ?_⟩⟩
    rintro rfl
    exact (h.mem_iff _).mp hmem
  · next hmem =>
    rw [h.mem_iff] at hmem
    refine ⟨⟨fun k' ↦ ?_, ?_, List.mem_append_left _ h.nil_mem, ?_⟩, fun k' ↦ by simp⟩
    · rw [OrdMap.mem_insert_iff, h.mem_iff, List.mem_append, List.mem_singleton, or_comm]
    · dsimp only
      rw [← List.concat_eq_append]
      exact h.nodup.concat hmem
    · refine h.ancestorsFirst.concat fun a ha hne ↦ ?_
      rcases mem_ancestors_iff.mp ha with rfl | hbelow
      · exact h.nil_mem
      · exact hanc a hbelow

theorem Pushed.foldl_pathPrefixes (h : Pushed st) (hpath : Proper slash path) :
    Pushed ((pathPrefixes path).foldl pushHintPrefix st) ∧
      ∀ k, k ∈ ((pathPrefixes path).foldl pushHintPrefix st).1 ↔
        k ∈ st.1 ∨ k = path ∨ Below slash k path := by
  induction path, hpath using Proper.parent_induction with
  | one path hpath hs =>
    have hbelow : ∀ a, ¬ Below slash a path := fun a ha ↦ hs (mem_of_below ha)
    obtain ⟨hpush, hmem⟩ := h.push hpath fun a ha ↦ absurd ha (hbelow a)
    rw [pathPrefixes_of_notMem hs hpath.ne_nil, List.foldl_cons, List.foldl_nil]
    exact ⟨hpush, fun k ↦ by simp only [hmem, hbelow, or_false]⟩
  | child path hpath hs ih =>
    obtain ⟨hpushed, hmem⟩ := ih
    rw [pathPrefixes_of_mem hpath hs, parentPath, List.foldl_append, List.foldl_cons,
      List.foldl_nil]
    obtain ⟨hpush, hmem'⟩ := hpushed.push hpath fun a ha ↦
      (hmem a).mpr (.inr (below_iff.mp ha).2)
    refine ⟨hpush, fun k ↦ ?_⟩
    rw [hmem', hmem, below_iff (p := path), or_assoc, or_comm (b := k = path)]
    simp only [hs, true_and]

/-- The root, the changed paths and what they lie below. -/
theorem pushed_hintPrefixes {changes : List Change} (h : ∀ c ∈ changes, Proper slash c.path) :
    (hintPrefixes changes).Nodup ∧ AncestorsFirst (hintPrefixes changes) ∧
      ∀ k, k ∈ hintPrefixes changes ↔ k = [] ∨ ∃ c ∈ changes, k = c.path ∨ Below slash k c.path := by
  have hroot : Pushed (pushHintPrefix ([], ∅) []) := by
    have hpush : pushHintPrefix ([], ∅) [] = ([[]], (∅ : BTreeSet Str).insert []) := by
      simp [pushHintPrefix, normalizePrefix]
    rw [hpush]
    refine ⟨fun k ↦ ?_, List.nodup_singleton _, List.mem_singleton_self _, ?_⟩
    · simp
    · intro before k after heq a ha hne
      obtain ⟨rfl, hk⟩ : before = [] ∧ [] = k := by
        cases before with
        | nil => exact ⟨rfl, List.head_eq_of_cons_eq heq⟩
        | cons b before => simp at heq
      subst hk
      rcases mem_ancestors_iff.mp ha with rfl | hbelow
      · exact absurd rfl hne
      · exact absurd rfl hbelow.ne_nil
  have hfold : ∀ (st : List Str × BTreeSet Str), Pushed st →
      Pushed (changes.foldl (fun st c ↦ (pathPrefixes c.path).foldl pushHintPrefix st) st) ∧
        ∀ k, k ∈ (changes.foldl (fun st c ↦ (pathPrefixes c.path).foldl pushHintPrefix st) st).1 ↔
          k ∈ st.1 ∨ ∃ c ∈ changes, k = c.path ∨ Below slash k c.path := by
    induction changes with
    | nil => exact fun st hst ↦ ⟨hst, fun k ↦ by simp⟩
    | cons c changes ih =>
      intro st hst
      obtain ⟨hpushed, hmem⟩ := hst.foldl_pathPrefixes (h c List.mem_cons_self)
      obtain ⟨hpushed', hmem'⟩ := ih (fun c' hc' ↦ h c' (List.mem_cons_of_mem _ hc')) _ hpushed
      refine ⟨hpushed', fun k ↦ ?_⟩
      rw [List.foldl_cons, hmem', hmem, List.exists_mem_cons_iff, or_assoc]
  obtain ⟨hpushed, hmem⟩ := hfold _ hroot
  refine ⟨hpushed.nodup, hpushed.ancestorsFirst, fun k ↦ ?_⟩
  rw [hintPrefixes, hmem]
  refine or_congr_left ?_
  simp [pushHintPrefix, normalizePrefix]

end Prefixes

/-! ## What is in a hint -/

/-- The loop takes the nodes of the first prefixes, of all of them unless it truncates, and it
takes no node that makes the announcement too long. -/
theorem hintLoop_spec (len : SentHint → Nat) (node : Str → Option TreeNode) (prefixes : List Str)
    (nodes : List TreeNode) : ∃ done rest, prefixes = done ++ rest ∧
      (hintLoop len node prefixes ⟨⟨nodes⟩, false⟩).nodes = nodes ++ done.filterMap node ∧
      ((hintLoop len node prefixes ⟨⟨nodes⟩, false⟩).truncated = false → rest = []) ∧
      ((hintLoop len node prefixes ⟨⟨nodes⟩, false⟩).nodes = nodes ∨
        len ⟨⟨(hintLoop len node prefixes ⟨⟨nodes⟩, false⟩).nodes⟩, false⟩ ≤
          maxFilesystemChangedBytes) := by
  induction prefixes generalizing nodes with
  | nil => exact ⟨[], [], rfl, (List.append_nil _).symm, fun _ ↦ rfl, .inl rfl⟩
  | cons pfx prefixes ih =>
    rw [hintLoop]
    cases hnode : node pfx with
    | none =>
      obtain ⟨done, rest, rfl, hnodes, hwhole, hlen⟩ := ih nodes
      exact ⟨pfx :: done, rest, rfl, by rw [hnodes, List.filterMap_cons_none hnode], hwhole, hlen⟩
    | some node' =>
      dsimp only
      split
      · next hfits =>
        obtain ⟨done, rest, rfl, hnodes, hwhole, hlen⟩ := ih (nodes ++ [node'])
        refine ⟨pfx :: done, rest, rfl, ?_, hwhole, ?_⟩
        · rw [hnodes, List.filterMap_cons_some hnode, List.append_assoc, List.singleton_append]
        · rcases hlen with heq | hlen
          · rw [heq]
            exact .inr hfits
          · exact .inr hlen
      · exact ⟨[], pfx :: prefixes, rfl, (List.append_nil _).symm, fun h ↦ (by cases h), .inl rfl⟩

section Hinted

variable {toBytes : GossipMessage → List UInt8} {folder : FolderState} {changes : List Change}
  {snapshot : RootReport} {origin : Str} {hint : SentHint} {done : List Str} {k : Str}
  {node : TreeNode} {expected : Hash}

/-- The hint holds the nodes at these paths: ancestors of theirs included, and everything above
a change unless the hint was truncated. -/
structure Hints (folder : FolderState) (changes : List Change) (hint : SentHint)
    (done : List Str) : Prop where
  nodes_eq : hint.nodes = done.filterMap fun k ↦ folder.tree.nodes[k]?
  nodup : done.Nodup
  proper : ∀ k ∈ done, k = [] ∨ Proper slash k
  ancestors_mem : ∀ k ∈ done, ∀ a ∈ ancestors k, a ∈ done
  whole : hint.truncated = false → ∀ k, k = [] ∨ (∃ c ∈ changes, UpTo c.path k) → k ∈ done

/-- A hint holds nodes of the tree, and it fits if a flag that is set is no longer than one that
is not. -/
theorem exists_hints (h : buildTreeHint toBytes folder changes snapshot origin = some hint)
    (hpaths : ∀ c ∈ changes, Proper slash c.path) :
    (∃ done, Hints folder changes hint done) ∧ filesystemChangedLen toBytes snapshot origin
      (some { hint with truncated := false }) ≤ maxFilesystemChangedBytes := by
  rw [buildTreeHint] at h
  obtain ⟨done, rest, hsplit, hnodes, hwhole, hlen⟩ := hintLoop_spec
    (fun hint ↦ filesystemChangedLen toBytes snapshot origin (some hint)) folder.node
    (hintPrefixes changes) []
  generalize hintLoop _ _ _ _ = hint' at h hnodes hwhole hlen
  split at h
  · cases h
  · next hne =>
    obtain rfl := Option.some.inj h
    obtain ⟨hnodup, hfirst, hmem⟩ := pushed_hintPrefixes hpaths
    have hproper : ∀ k ∈ hintPrefixes changes, k = [] ∨ Proper slash k := by
      intro k hk
      refine ((hmem k).mp hk).imp id ?_
      rintro ⟨c, hc, rfl | hbelow⟩
      · exact hpaths c hc
      · exact (hpaths c hc).of_below hbelow
    have hsub : ∀ k ∈ done, k ∈ hintPrefixes changes := fun k hk ↦
      hsplit ▸ List.mem_append_left rest hk
    refine ⟨⟨done, ?_, ?_, fun k hk ↦ hproper k (hsub k hk), fun k hk a ha ↦ ?_, fun ht k hk ↦ ?_⟩,
      hlen.resolve_left hne⟩
    · rw [hnodes, List.nil_append]
      refine List.filterMap_congr fun k hk ↦ ?_
      rw [FolderState.node]
      rcases hproper k (hsub k hk) with rfl | hk
      · rfl
      · rw [normalizePrefix_of_proper hk]
    · rw [hsplit] at hnodup
      exact (List.nodup_append.mp hnodup).1
    · by_cases hak : a = k
      · exact hak ▸ hk
      · obtain ⟨before, after, rfl⟩ := List.append_of_mem hk
        rw [List.append_assoc, List.cons_append] at hsplit
        exact List.mem_append_left _ (hfirst before k _ hsplit a ha hak)
    · rw [hwhole ht, List.append_nil] at hsplit
      rw [← hsplit, hmem]
      rcases hk with rfl | ⟨c, hc, rfl | hk⟩
      · exact .inl rfl
      · exact .inr ⟨c, hc, .inl rfl⟩
      · exact (mem_ancestors_iff.mp hk).imp id fun hbelow ↦ ⟨c, hc, .inr hbelow⟩

theorem Hints.mem_nodes_iff (h : Hints folder changes hint done) :
    node ∈ hint.nodes ↔ ∃ k ∈ done, folder.tree.nodes[k]? = some node := by
  rw [h.nodes_eq, List.mem_filterMap]

variable [Blake3]

/-- The receiver finds what the hint holds, under the hash it has in the tree. -/
theorem Hints.get_eq_some (h : Hints folder changes hint done)
    (htree : WellFormed folder.tree folder.entries inclAll) (hk : k ∈ done)
    (hnode : folder.tree.nodes[k]? = some node) :
    (HintedNodes.ofHint hint.toTreeHint).get k node.hash = some node := by
  have hkey : ∀ k ∈ done, ∀ node, folder.tree.nodes[k]? = some node →
      normalizePrefix node.nodePrefix = k ∧ treeNodeHash node = node.hash := by
    intro k hk node hnode
    have his := htree.isNode hnode
    rw [his.prefix_eq, normalizePrefix_displayPrefix (h.proper k hk)]
    exact ⟨rfl, his.hash_eq.symm⟩
  have hlist : ∀ k node, (k, node) ∈ (hint.nodes.filter fun node ↦ treeNodeHash node = node.hash).map
      (fun node ↦ (normalizePrefix node.nodePrefix, node)) ↔
        k ∈ done ∧ folder.tree.nodes[k]? = some node := by
    intro k node
    rw [List.mem_map]
    constructor
    · rintro ⟨node', hmem, heq⟩
      obtain ⟨rfl, rfl⟩ := Prod.mk.inj heq
      obtain ⟨k, hk, hnode⟩ := h.mem_nodes_iff.mp (List.mem_filter.mp hmem).1
      rw [(hkey k hk _ hnode).1]
      exact ⟨hk, hnode⟩
    · rintro ⟨hk, hnode⟩
      obtain ⟨hpfx, hhash⟩ := hkey k hk node hnode
      exact ⟨node, List.mem_filter.mpr ⟨h.mem_nodes_iff.mpr ⟨k, hk, hnode⟩, decide_eq_true hhash⟩,
        Prod.ext hpfx rfl⟩
  have hfunctional : OrdMap.Functional ((hint.nodes.filter fun node ↦
      treeNodeHash node = node.hash).map fun node ↦ (normalizePrefix node.nodePrefix, node)) := by
    intro k node node' hn hn'
    exact Option.some.inj (((hlist k node).mp hn).2.symm.trans ((hlist k node').mp hn').2)
  have hnormal : normalizePrefix k = k := by
    rcases h.proper k hk with rfl | hk
    · rfl
    · exact normalizePrefix_of_proper hk
  rw [HintedNodes.get, hnormal, HintedNodes.ofHint,
    (OrdMap.getElem?_ofList_iff hfunctional).mpr ((hlist k node).mpr ⟨hk, hnode⟩)]
  simp

end Hinted

/-! ## What an update leaves alone -/

section Clean

variable [Blake3] {S S' : TreeSnapshot} {entries entries' : Index} {changedPaths : List Str}
  {incl : Entry → Bool} {k : Str}

omit [Blake3] in
/-- Below a path that is above no change the same entries are included. -/
theorem included_iff_of_clean (hE : Keyed entries) (hE' : Keyed entries')
    (hcov : Covers entries entries' changedPaths) (hclean : ∀ q ∈ changedPaths, ¬ UpTo q k)
    {e : Entry} (hu : UpTo e.path k) : Included entries' incl e ↔ Included entries incl e := by
  have heq : entries[e.path]? = entries'[e.path]? := by
    by_contra hne
    exact hclean e.path (hcov _ hne) hu
  constructor
  · intro h
    exact ⟨⟨e.path, heq ▸ h.getElem? hE'⟩, h.2⟩
  · intro h
    exact ⟨⟨e.path, heq ▸ h.getElem? hE⟩, h.2⟩

/-- Above no change, a node that belongs to the new index belongs to the old one. -/
theorem IsNode.of_clean {n : TreeNode} (h : IsNode S'.nodes entries' incl k n)
    (hE : Keyed entries) (hE' : Keyed entries') (hcov : Covers entries entries' changedPaths)
    (hclean : ∀ q ∈ changedPaths, ¬ UpTo q k)
    (hchildren : ∀ c, c ≠ [] → parentPath c = k → S'.nodes[c]? = S.nodes[c]?) :
    IsNode S.nodes entries incl k n where
  prefix_eq := h.prefix_eq
  hash_eq := h.hash_eq
  entries_iff := by
    intro name hash
    rw [h.entries_iff]
    refine exists_congr fun e ↦ ?_
    by_cases hp : parentPath e.path = k
    · rw [included_iff_of_clean hE hE' hcov hclean (hp ▸ .inr (parent_mem_ancestors _))]
    · simp [hp]
  children_iff := by
    intro name hash
    rw [h.children_iff]
    refine exists_congr fun c ↦ exists_congr fun m ↦ ?_
    by_cases hc : c ≠ [] ∧ parentPath c = k
    · rw [hchildren c hc.1 hc.2]
    · tauto

/-- Above no change the nodes of two trees are the same, if they are at the same paths. -/
theorem getElem?_nodes_of_clean (hE : Keyed entries) (hE' : Keyed entries')
    (hS : WellFormed S entries incl) (hS' : WellFormed S' entries' incl)
    (hcov : Covers entries entries' changedPaths)
    (hmem : ∀ k, (∀ q ∈ changedPaths, ¬ UpTo q k) → (k ∈ S'.nodes ↔ k ∈ S.nodes))
    (hclean : ∀ q ∈ changedPaths, ¬ UpTo q k) : S'.nodes[k]? = S.nodes[k]? := by
  obtain ⟨L, hL⟩ := exists_length_le S.nodes
  -- Longest paths first: there are no nodes beyond length `L`.
  have key : ∀ d (k : Str), L < k.length + d → (∀ q ∈ changedPaths, ¬ UpTo q k) →
      S'.nodes[k]? = S.nodes[k]? := by
    intro d
    induction d with
    | zero =>
      intro k hk hclean
      have hk' : k ∉ S.nodes := fun h ↦ absurd (hL k h) (Nat.not_le_of_lt hk)
      rw [ExtTreeMap.getElem?_eq_none hk',
        ExtTreeMap.getElem?_eq_none (mt (hmem k hclean).mp hk')]
    | succ d ih =>
      intro k hk hclean
      by_cases hk' : k ∈ S.nodes
      · have h := ExtTreeMap.getElem?_eq_some_getElem hk'
        have h' := ExtTreeMap.getElem?_eq_some_getElem ((hmem k hclean).mpr hk')
        have hnode := (hS'.isNode h').of_clean (S := S) hE hE' hcov hclean fun c hne hc ↦ by
          have hlen : k.length < c.length := hc ▸ length_parent_lt hne
          -- a child above a change would put its parent above that change
          exact ih c (by omega) fun q hq hu ↦ hclean q hq (hc ▸ hu.parentPath)
        rw [h, h', hnode.eq_of_longer (hS.isNode h) fun _ _ ↦ rfl]
      · rw [ExtTreeMap.getElem?_eq_none hk',
          ExtTreeMap.getElem?_eq_none (mt (hmem k hclean).mp hk')]
  exact key (L + 1) k (by omega) hclean

/-- Trees that are derived from scratch have nodes at the same paths, where nothing changed
below. -/
theorem mem_deriveTreeWith_of_clean (hE : Keyed entries) (hE' : Keyed entries')
    (hcov : Covers entries entries' changedPaths) (hclean : ∀ q ∈ changedPaths, ¬ UpTo q k) :
    k ∈ (deriveTreeWith entries' incl).nodes ↔ k ∈ (deriveTreeWith entries incl).nodes := by
  rw [mem_deriveTreeWith_iff, mem_deriveTreeWith_iff]
  refine or_congr (or_congr_right (exists_congr fun e ↦ and_congr_left fun hb ↦ ?_))
    (exists_congr fun e ↦ and_congr_left fun hb ↦ ?_)
  · exact included_iff_of_clean hE hE' hcov hclean (.inr (mem_ancestors_iff.mpr (.inr hb)))
  · exact included_iff_of_clean hE hE' hcov hclean (.inl hb.2.symm)

/-- An update that loses no entry leaves the paths of nodes alone, where nothing changed below. -/
theorem mem_updateTreeSnapshot_of_clean
    (hkept : ∀ q ∈ changedPaths, isIncluded entries' incl q)
    (hclean : ∀ q ∈ changedPaths, ¬ UpTo q k) :
    k ∈ (updateTreeSnapshot S entries' changedPaths incl).nodes ↔ k ∈ S.nodes := by
  have hk : k ∉ dirtyPaths S entries' changedPaths incl := by
    rw [mem_dirtyPaths_iff]
    rintro (⟨q, hq, hu⟩ | ⟨q, hq, d, ⟨-, hlost, -⟩, -⟩)
    · exact hclean q hq hu
    · exact hlost (hkept q hq)
  rw [ExtTreeMap.mem_iff_isSome_getElem?, getElem?_updateTreeSnapshot_of_notMem hk,
    ← ExtTreeMap.mem_iff_isSome_getElem?]

end Clean

/-! ## What is announced -/

section Run

variable {W : Type} [FileSystem W] [Blake3] (toBytes : GossipMessage → List UInt8)

/-- `apply_filesystem_paths` up to the announcement: what it is made of, if anything changed. -/
def filesystemUpdate (localOrigin : Str) (paths : List PathBuf) :
    NodeM W (Option (List Change × RootReport × Option SentHint)) := do
  match ← Proc.attempt (applyFilesystemPaths paths) with
  | .ok changes =>
    if changes = [] then pure none
    else
      let folder := (← get).folder
      let snapshot := folder.report
      pure (some (changes, snapshot, buildTreeHint toBytes folder changes snapshot localOrigin))
  | .error _ => pure none

variable {toBytes} {n n' : Node W} {paths : List PathBuf} {changes : List Change}
  {snapshot : RootReport} {hint : Option SentHint} {localOrigin : Str}

omit [FileSystem W] [Blake3] in
/-- Every noted path has an entry. -/
theorem exists_of_mem_stamps {r : Replica} {st : Recorded} (h : Replica.Stamps (r, []) st)
    {c : Change} (hc : c ∈ st.2) : ∃ e, st.1.entries[c.path]? = some e := by
  obtain ⟨cs, hcs, hfresh⟩ := h.grown.changes
  obtain ⟨e, he, -⟩ := hfresh c (by simpa [hcs] using hc)
  exact ⟨e, he⟩

/-- The tree belongs to the new index, which differs from the old one at the changes only; the
nodes that are above no change are the old ones. -/
structure Follows (n n' : Node W) (changes : List Change) : Prop where
  tree : WellFormed n'.folder.tree n'.folder.entries inclAll
  proper : ∀ c ∈ changes, Proper slash c.path
  clean : ∀ k, (∀ c ∈ changes, ¬ UpTo c.path k) →
    n'.folder.tree.nodes[k]? = n.folder.tree.nodes[k]?

omit [FileSystem W] in
theorem follows_of_stamps {st : Recorded} (hst : Replica.Stamps (n.folder.toReplica, []) st)
    (hn : n.folder.UpToDate) (hentries : n'.folder.entries = st.1.entries)
    (hkeyed : Keyed n'.folder.entries)
    (htree : n'.folder.tree = updateTreeSnapshot n.folder.tree n'.folder.entries
        (st.2.map Change.path) inclAll ∨
      n'.folder.tree = deriveTree n'.folder.entries ∧ n.folder.tree = deriveTree n.folder.entries) :
    Follows n n' st.2 := by
  obtain ⟨cs, hcs, hcov⟩ := hst.covers
  obtain rfl : st.2 = cs := hcs
  have hcov : Covers n.folder.entries n'.folder.entries (st.2.map Change.path) := hentries ▸ hcov
  have hheld : ∀ q ∈ st.2.map Change.path, ∃ e, n'.folder.entries[q]? = some e := by
    intro q hq
    obtain ⟨c, hc, rfl⟩ := List.mem_map.mp hq
    rw [hentries]
    exact exists_of_mem_stamps hst hc
  have hwell : WellFormed n'.folder.tree n'.folder.entries inclAll := by
    rcases htree with htree | ⟨htree, -⟩ <;> rw [htree]
    · exact updateTreeSnapshot_wellFormed hn.keyed hkeyed hn.tree hcov
    · exact deriveTreeWith_wellFormed hkeyed
  refine ⟨hwell, fun c hc ↦ ?_, fun k hclean ↦ ?_⟩
  · obtain ⟨e, he⟩ := hheld c.path (List.mem_map_of_mem hc)
    exact hkeyed.proper he
  · refine getElem?_nodes_of_clean hn.keyed hkeyed hn.tree hwell hcov (fun k hclean ↦ ?_)
      (List.forall_mem_map.mpr hclean)
    rcases htree with htree | ⟨htree, htree₀⟩
    · rw [htree]
      refine mem_updateTreeSnapshot_of_clean (fun q hq ↦ ?_) hclean
      obtain ⟨e, he⟩ := hheld q hq
      rw [isIncluded, he]
      rfl
    · rw [htree, htree₀]
      exact mem_deriveTreeWith_of_clean hn.keyed hkeyed hcov hclean

theorem follows_rescan (hn : n.folder.UpToDate)
    (hcurrent : n.folder.tree = deriveTree n.folder.entries)
    (hexec : exec rescan n = (.ok changes, n')) (hkeyed : Keyed n'.folder.entries) :
    Follows n n' changes := by
  have hspec := exec_rescan n
  match hsurvey : exec (survey n.folder.root) n.view with
  | (.error err, v) =>
    rw [hsurvey, hexec] at hspec
    cases hspec
  | (.ok s, v) =>
    rw [hsurvey] at hspec
    obtain ⟨w, files, cache, hrun⟩ := hspec
    have hplaced : s.Placed := Survey.yields_placed _ _ _ (congrArg Prod.fst hsurvey)
    obtain ⟨hchanges, rfl⟩ := Prod.mk.inj (hexec.symm.trans hrun)
    obtain rfl := Except.ok.inj hchanges
    exact follows_of_stamps (Survey.stamps_record hplaced (n.folder.toReplica, [])) hn rfl hkeyed
      (.inr ⟨rfl, hcurrent⟩)

theorem follows_applyPaths (hn : n.folder.UpToDate)
    (hcurrent : (fallbackView n paths).isSome → n.folder.tree = deriveTree n.folder.entries)
    (hexec : exec (applyPaths paths) n = (.ok changes, n')) (hne : changes ≠ [])
    (hkeyed : Keyed n'.folder.entries) : Follows n n' changes := by
  obtain ⟨v, ⟨-, hfall, hrescan⟩ | ⟨err, herr⟩ | hcommit⟩ := exec_applyPaths paths n
  · rw [hrescan] at hexec
    have hn' : (n.withView v).folder.UpToDate := ⟨hn.keyed, hn.tree, hn.liveTree⟩
    obtain ⟨htree, hproper, hclean⟩ := follows_rescan hn' (hcurrent (by rw [hfall]; rfl)) hexec
      hkeyed
    exact ⟨htree, hproper, hclean⟩
  · rw [herr] at hexec
    cases hexec
  · have hplaced : ∀ rs ∈ eventSights n paths, rs.2.Placed rs.1 := fun _ ↦ placed_of_mem_eventSights
    have hst := stamps_recordAll hplaced (n.folder.toReplica, [])
    rw [hcommit] at hexec
    generalize recordAll (eventSights n paths) (n.folder.toReplica, []) = st at hst hexec
    obtain ⟨w, files, dirty, hsave⟩ := exec_saveScanCache ((n.withReplica st.1).withView v)
    rw [exec_bind_ok hsave] at hexec
    obtain ⟨_, n₁, hrun, hpure⟩ := of_exec_bind hexec
    obtain ⟨hchanges, rfl⟩ := Prod.mk.inj hpure
    obtain rfl := Except.ok.inj hchanges
    obtain ⟨w', lamportSaved, entriesSaved, hcommitted, -⟩ := exec_commitChanges hne (Node.mk
      { n.folder with toReplica := st.1, scanCache := { v.2 with dirty := dirty } }
      { n.store with scanCache := files } w)
    obtain ⟨-, rfl⟩ := Prod.mk.inj (hrun.symm.trans hcommitted)
    exact follows_of_stamps hst hn rfl hkeyed (.inl rfl)

end Run

/-! ## A directory that was made -/

section Made

/-- A string without anything to escape. -/
def jsonString (value : Str) : List UInt8 := lit "\"" ++ value ++ lit "\""

def jsonHash (hash : Hash) : List UInt8 :=
  lit "[" ++ (lit ",").intercalate (hash.toList.map fun b ↦ decimal b.toNat) ++ lit "]"

def jsonObject (fields : List (Str × List UInt8)) : List UInt8 :=
  lit "\x7b" ++ (lit ",").intercalate (fields.map fun kv ↦ jsonString kv.1 ++ lit ":" ++ kv.2) ++
    lit "\x7d"

def jsonHashes (hashes : BTreeMap Str Hash) : List UInt8 :=
  jsonObject (hashes.toList.map fun kv ↦ (kv.1, jsonHash kv.2))

def jsonNode (node : TreeNode) : List UInt8 :=
  jsonObject [(lit "prefix", jsonString node.nodePrefix), (lit "entries", jsonHashes node.entries),
    (lit "children", jsonHashes node.children), (lit "hash", jsonHash node.hash)]

def jsonHint (hint : SentHint) : List UInt8 :=
  jsonObject [(lit "truncated", if hint.truncated then lit "true" else lit "false"),
    (lit "nodes", lit "[" ++ (lit ",").intercalate (hint.nodes.map jsonNode) ++ lit "]")]

/-- The announcement of a change as it is serialized, for names without anything to escape. -/
def jsonChanged : GossipMessage → List UInt8
  | .filesystemChanged origin stateRoot liveRoot lamport hint =>
    jsonObject [(lit "kind", jsonString (lit "filesystem-changed")),
      (lit "origin", jsonString origin), (lit "state_root", jsonHash stateRoot),
      (lit "live_root", jsonHash liveRoot), (lit "lamport", decimal lamport),
      (lit "hint", (hint.map jsonHint).getD (lit "null"))]
  | _ => []

/-- A set flag is shorter. -/
theorem filesystemChangedLen_jsonChanged (snapshot : RootReport) (origin : Str)
    (nodes : List TreeNode) :
    filesystemChangedLen jsonChanged snapshot origin (some ⟨⟨nodes⟩, true⟩) ≤
      filesystemChangedLen jsonChanged snapshot origin (some ⟨⟨nodes⟩, false⟩) := by
  have htrue : (lit "true").length = 4 := by decide
  have hfalse : (lit "false").length = 5 := by decide
  simp only [filesystemChangedLen, jsonChanged, jsonHint, jsonObject, List.map_cons, List.map_nil,
    Option.map_some, Option.getD_some, List.length_append, List.intercalate, List.intersperse,
    List.flatten_cons, List.flatten_nil, ↓reduceIte, Bool.false_eq_true, htrue, hfalse]
  omega

variable [Blake3]

/-- A directory has been made in an empty folder. -/
def made : Node Posix.Disk :=
  let n : Node Posix.Disk := Node.blank [lit "s"] (lit "A")
    (Posix.Disk.of [([lit "s"], .dir 0o755), ([lit "s", lit "d"], .dir 0o755)] [])
  { n with folder := n.folder.deriveTrees }

end Made

end Lilsync
