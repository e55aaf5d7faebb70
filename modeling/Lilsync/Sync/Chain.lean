import Lilsync.Sync.Walk
import Lilsync.Tree.Commitment

/-!
# Chains of nodes below a root

A root commits to an entry by a chain of nodes: each node has the hash that its
parent lists, and the last one lists the entry.  If no two of the strings that
are hashed collide, what the names of a chain lead to is determined by the root.
If the root is that of the tree of an index, it is an entry of that index.
-/

namespace Lilsync

open Std (ExtTreeMap)
open Lilsync.Lib Lilsync.Lib.SlashPath

/-! ## Paths -/

/-- A proper path has no slashes to trim, at its front and at its back. -/
theorem dropWhile_of_proper {path : Str} (h : Proper slash path) :
    path.dropWhile (· == slash) = path ∧
      path.reverse.dropWhile (· == slash) = path.reverse := by
  have hnil : ¬ Proper slash ([] : Str) := fun h ↦ h.ne_nil rfl
  have hhead {p : Str} (h : ∀ q, p ≠ slash :: q) : p.dropWhile (· == slash) = p := by
    cases p with
    | nil => rfl
    | cons b q =>
      refine List.dropWhile_cons_of_neg fun hb ↦ h q ?_
      rw [beq_iff_eq.mp hb]
  constructor
  · refine hhead fun q hq ↦ hnil ?_
    rw [hq] at h
    exact (proper_append_iff (a := []).mp h).1
  · refine hhead fun q hq ↦ hnil ?_
    rw [← List.reverse_reverse path, hq, List.reverse_cons] at h
    exact (proper_append_iff.mp h).2

theorem normalizePrefix_of_proper {path : Str} (h : Proper slash path) :
    normalizePrefix path = path := by
  obtain ⟨hfirst, hlast⟩ := dropWhile_of_proper h
  rw [normalizePrefix, hfirst, hlast, List.reverse_reverse]

theorem normalizePrefix_displayPrefix {path : Str} (h : path = [] ∨ Proper slash path) :
    normalizePrefix (displayPrefix path) = path := by
  rcases h with rfl | h
  · rfl
  · have hlast := (dropWhile_of_proper h).2
    have hfront : (path ++ [slash]).dropWhile (· == slash) = path ++ [slash] := by
      cases path with
      | nil => exact absurd rfl h.ne_nil
      | cons b q =>
        refine List.dropWhile_cons_of_neg fun hb ↦ ?_
        obtain rfl := beq_iff_eq.mp hb
        exact (proper_append_iff (a := []).mp h).1.ne_nil rfl
    rw [displayPrefix, if_neg h.ne_nil, normalizePrefix, List.cons_append,
      List.dropWhile_cons_of_pos (by rfl), hfront, List.reverse_append, List.reverse_singleton,
      List.singleton_append, List.dropWhile_cons_of_pos (by rfl), hlast, List.reverse_reverse]

/-- A path is that of its parent joined with its name. -/
theorem joinPath_parent_base {path : Str} (h : Proper slash path) :
    joinPath (parentPath path) (basename path) = path := by
  rw [joinPath]
  rcases parent_base_cases slash path with ⟨-, hparent, hbase⟩ | ⟨hpath, -⟩
  · rw [parentPath, hparent, basename, hbase]
    rfl
  · have hproper : Proper slash (parentPath path) := by
      rw [hpath] at h
      exact (proper_append_iff.mp h).1
    rw [normalizePrefix_of_proper hproper, if_neg hproper.ne_nil]
    exact hpath.symm

/-- The path under which the walk looks for what has these names, the last one first. -/
def pathOf : List Str → Str
  | [] => []
  | name :: names => joinPath (pathOf names) name

/-! ## Chains -/

/-- A chain of nodes from the root: each hash is listed by a node with the hash before. -/
inductive Chain (HasHash : TreeNode → Hash → Prop) (root : Hash) : List Str → Hash → Prop
  | root : Chain HasHash root [] root
  | child {names : List Str} {hash childHash : Hash} {node : TreeNode} {name : Str} :
    Chain HasHash root names hash → HasHash node hash → node.children[name]? = some childHash →
    Chain HasHash root (name :: names) childHash

section Mono

variable {HasHash HasHash' : TreeNode → Hash → Prop} {root hash : Hash} {names : List Str}
  {e : Entry}

theorem Chain.mono (h : Chain HasHash root names hash)
    (hle : ∀ node hash, HasHash node hash → HasHash' node hash) :
    Chain HasHash' root names hash := by
  induction h with
  | root => exact .root
  | child _ hnode hchild ih => exact .child ih (hle _ _ hnode) hchild

variable [Blake3]

/-- The last node of a chain lists the entry under its name. -/
def ListedIn (HasHash : TreeNode → Hash → Prop) (root : Hash) (names : List Str) (e : Entry) :
    Prop :=
  ∃ name above hash node, names = name :: above ∧ Chain HasHash root above hash ∧
    HasHash node hash ∧ node.entries[name]? = some (hashEntry e) ∧ e.path = pathOf names

theorem ListedIn.mono (h : ListedIn HasHash root names e)
    (hle : ∀ node hash, HasHash node hash → HasHash' node hash) :
    ListedIn HasHash' root names e := by
  obtain ⟨name, above, hash, node, hnames, hchain, hnode, hrest⟩ := h
  exact ⟨name, above, hash, node, hnames, hchain.mono hle, hle _ _ hnode, hrest⟩

end Mono

variable [Blake3] {S S' : Set TreeNode} {E : Set Entry} {root hash hash' : Hash}
  {names : List Str} {e e' : Entry}

/-- A node of a set, with the hash computed from its content. -/
def Recomputed (S : Set TreeNode) (node : TreeNode) (hash : Hash) : Prop :=
  node ∈ S ∧ treeNodeHash node = hash

/-- The root commits to the entry, by a chain of nodes from the set. -/
def Commits (S : Set TreeNode) (root : Hash) (e : Entry) : Prop :=
  ∃ names, ListedIn (Recomputed S) root names e

theorem Commits.mono (h : Commits S root e) (hS : S ⊆ S') : Commits S' root e := by
  obtain ⟨names, hlisted⟩ := h
  exact ⟨names, hlisted.mono fun _ _ hnode ↦ ⟨hS hnode.1, hnode.2⟩⟩

/-! ## Strings that are hashed -/

/-- What is hashed for a node. -/
def TreeNode.bytes (node : TreeNode) : List UInt8 :=
  nodeBytes node.nodePrefix node.entries node.children

/-- The node can be encoded. -/
def TreeNode.Fits (node : TreeNode) : Prop :=
  node.nodePrefix.length < 2 ^ 64 ∧ NamesFit node.entries ∧ NamesFit node.children

theorem treeNodeHash_eq (node : TreeNode) : treeNodeHash node = Blake3.digest node.bytes := rfl

/-- The strings that are hashed for nodes and entries. -/
def stringsOf (S : Set TreeNode) (E : Set Entry) : Set (List UInt8) :=
  TreeNode.bytes '' S ∪ entryBytes '' E

/-- The nodes and entries can be encoded, and no two of them collide. -/
structure WithoutCollision (S : Set TreeNode) (E : Set Entry) : Prop where
  nodes : ∀ node ∈ S, node.Fits
  entries : ∀ e ∈ E, e.Fits
  injOn : Set.InjOn Blake3.digest (stringsOf S E)

instance (node : TreeNode) : Decidable node.Fits :=
  inferInstanceAs (Decidable (_ ∧ (∀ name ∈ node.entries.keys, _) ∧ ∀ name ∈ node.children.keys, _))

/-- Finitely many strings are looked through. -/
theorem withoutCollision_of_mem (nodes : List TreeNode) (es : List Entry)
    (hS : ∀ node ∈ S, node ∈ nodes) (hE : ∀ e ∈ E, e ∈ es)
    (hnodes : ∀ node ∈ nodes, node.Fits) (hes : ∀ e ∈ es, e.Fits)
    (hinj : ∀ bytes ∈ nodes.map TreeNode.bytes ++ es.map entryBytes,
      ∀ bytes' ∈ nodes.map TreeNode.bytes ++ es.map entryBytes,
        Blake3.digest bytes = Blake3.digest bytes' → bytes = bytes') : WithoutCollision S E where
  nodes node hnode := hnodes node (hS node hnode)
  entries e he := hes e (hE e he)
  injOn := by
    have hmem : ∀ bytes ∈ stringsOf S E,
        bytes ∈ nodes.map TreeNode.bytes ++ es.map entryBytes := by
      rintro bytes (⟨node, hnode, rfl⟩ | ⟨e, he, rfl⟩)
      · exact List.mem_append_left _ (List.mem_map_of_mem (hS node hnode))
      · exact List.mem_append_right _ (List.mem_map_of_mem (hE e he))
    intro bytes hbytes bytes' hbytes'
    exact hinj bytes (hmem bytes hbytes) bytes' (hmem bytes' hbytes')

namespace WithoutCollision

theorem node_eq (h : WithoutCollision S E) {node node' : TreeNode} (hnode : node ∈ S)
    (hnode' : node' ∈ S) (hhash : treeNodeHash node = treeNodeHash node') :
    node.entries = node'.entries ∧ node.children = node'.children := by
  obtain ⟨hp, he, hc⟩ := h.nodes node hnode
  obtain ⟨hp', he', hc'⟩ := h.nodes node' hnode'
  have hbytes : node.bytes = node'.bytes :=
    h.injOn (.inl ⟨node, hnode, rfl⟩) (.inl ⟨node', hnode', rfl⟩) hhash
  exact (nodeBytes_inj hp hp' he hc he' hc' hbytes).2

theorem entry_eq (h : WithoutCollision S E) (he : e ∈ E) (he' : e' ∈ E)
    (hhash : hashEntry e = hashEntry e') : e = e' := by
  rw [hashEntry_eq, hashEntry_eq] at hhash
  exact entryBytes_inj (h.entries e he) (h.entries e' he')
    (h.injOn (.inr ⟨e, he, rfl⟩) (.inr ⟨e', he', rfl⟩) hhash)

/-- The names of a chain lead to one hash. -/
theorem hash_eq (h : WithoutCollision S E) (hchain : Chain (Recomputed S) root names hash)
    (hchain' : Chain (Recomputed S) root names hash') : hash = hash' := by
  induction hchain generalizing hash' with
  | root =>
    cases hchain'
    rfl
  | child _ hnode hchild ih =>
    cases hchain' with
    | child habove' hnode' hchild' =>
      have hhash := ih habove'
      have hchildren := (h.node_eq hnode.1 hnode'.1 (hnode.2.trans (hhash.trans hnode'.2.symm))).2
      rw [hchildren, hchild'] at hchild
      exact (Option.some.inj hchild).symm

/-- The root determines the entry with these names. -/
theorem listed_eq (h : WithoutCollision S E) (he : e ∈ E) (he' : e' ∈ E)
    (hlisted : ListedIn (Recomputed S) root names e)
    (hlisted' : ListedIn (Recomputed S) root names e') : e = e' := by
  obtain ⟨name, above, hash, node, rfl, hchain, hnode, hentry, -⟩ := hlisted
  obtain ⟨name', above', hash', node', hnames, hchain', hnode', hentry', -⟩ := hlisted'
  obtain ⟨rfl, rfl⟩ := List.cons.inj hnames
  have hhash := h.hash_eq hchain hchain'
  have hentries := (h.node_eq hnode.1 hnode'.1 (hnode.2.trans (hhash.trans hnode'.2.symm))).1
  rw [hentries, hentry'] at hentry
  exact h.entry_eq he he' (Option.some.inj hentry).symm

/-- All entries the root commits to are those of one index, by the names of their chains. -/
theorem exists_index (h : WithoutCollision S E) (hE : ∀ e ∈ E, Commits S root e) :
    ∃ index : List Str → Option Entry, ∀ e ∈ E, ∃ names, index names = some e ∧
      e.path = pathOf names := by
  classical
  let At (names : List Str) (e : Entry) : Prop := e ∈ E ∧ ListedIn (Recomputed S) root names e
  refine ⟨fun names ↦ if hat : ∃ e, At names e then some hat.choose else none, fun e he ↦ ?_⟩
  obtain ⟨names, hlisted⟩ := hE e he
  have hat : ∃ e, At names e := ⟨e, he, hlisted⟩
  refine ⟨names, ?_, ?_⟩
  · refine (dif_pos hat).trans ?_
    exact congrArg some (h.listed_eq hat.choose_spec.1 he hat.choose_spec.2 hlisted)
  · obtain ⟨-, -, -, -, -, -, -, -, hpath⟩ := hlisted
    exact hpath

end WithoutCollision

/-! ## The tree of an index -/

section Tree

variable {T : TreeSnapshot} {entries : Index} {incl : Entry → Bool}

/-- The nodes of a tree. -/
def TreeSnapshot.nodeSet (T : TreeSnapshot) : Set TreeNode :=
  {node | ∃ k : Str, T.nodes[k]? = some node}

omit [Blake3] in
theorem mem_of_mem_nodeSet {node : TreeNode} (h : node ∈ T.nodeSet) :
    node ∈ T.nodes.toList.map Prod.snd := by
  obtain ⟨k, hk⟩ := h
  exact List.mem_map.mpr ⟨(k, node), ExtTreeMap.mem_toList_iff_getElem?_eq_some.mpr hk, rfl⟩

/-- A chain of nodes stays in the tree whose root it starts from. -/
theorem WellFormed.exists_node (h : WellFormed T entries incl) (hE : Keyed entries)
    (hfree : WithoutCollision (S ∪ T.nodeSet) E) (hchain : Chain (Recomputed S) T.rootHash names hash) :
    ∃ node, T.nodes[pathOf names]? = some node ∧ node.hash = hash := by
  induction hchain with
  | root =>
    obtain ⟨node, hnode⟩ :=
      Option.isSome_iff_exists.mp (ExtTreeMap.mem_iff_isSome_getElem?.mp h.root_mem)
    refine ⟨node, hnode, ?_⟩
    rw [h.rootHash_eq, rootHashOf, hnode]
    rfl
  | @child names hash childHash node name _ hnode hchild ih =>
    obtain ⟨node', hnode', rfl⟩ := ih
    have hisNode := h.isNode hnode'
    have hchildren := (hfree.node_eq (.inl hnode.1) (.inr ⟨_, hnode'⟩)
      (hnode.2.trans hisNode.hash_eq)).2
    rw [hchildren] at hchild
    obtain ⟨c, m, hne, hm, hparent, rfl, hhash⟩ := hisNode.children_iff.mp hchild
    have hc : c ∈ T.nodes := ExtTreeMap.mem_iff_isSome_getElem?.mpr (by simp [hm])
    have hproper : Proper slash c := (h.proper hE hc).resolve_left hne
    refine ⟨m, ?_, hhash⟩
    rw [pathOf, ← hparent, joinPath_parent_base hproper, hm]

/-- If the root is that of the tree of an index, the entries it commits to are in the
index. -/
theorem WellFormed.included_of_commits (h : WellFormed T entries incl) (hE : Keyed entries)
    (hfree : WithoutCollision (S ∪ T.nodeSet) (E ∪ {e | Included entries incl e})) (he : e ∈ E)
    (hcommits : Commits S T.rootHash e) : Included entries incl e := by
  obtain ⟨names, name, above, hash, node, rfl, hchain, hnode, hentry, hpath⟩ := hcommits
  obtain ⟨node', hnode', rfl⟩ := h.exists_node hE hfree hchain
  have hisNode := h.isNode hnode'
  have hentries := (hfree.node_eq (.inl hnode.1) (.inr ⟨_, hnode'⟩)
    (hnode.2.trans hisNode.hash_eq)).1
  rw [hentries] at hentry
  obtain ⟨e', he', -, -, hhash⟩ := hisNode.entries_iff.mp hentry
  exact hfree.entry_eq (.inr he') (.inl he) hhash ▸ he'

end Tree

/-! ## Hashes inside hashes -/

/-- A hash that is part of a string with the hash. -/
def HashBelow (strings : Set (List UInt8)) (hash' hash : Hash) : Prop :=
  ∃ bytes ∈ strings, Blake3.digest bytes = hash ∧ hash'.toList <:+: bytes

/-- Strings that have ranks, with hashes of smaller ranks in them only. -/
theorem wellFounded_hashBelow {strings : Set (List UInt8)} (rank : List UInt8 → Nat) (top : Nat)
    (htop : ∀ bytes ∈ strings, rank bytes < top)
    (hrank : ∀ bytes ∈ strings, ∀ bytes' ∈ strings,
      (Blake3.digest bytes').toList <:+: bytes → rank bytes' < rank bytes) :
    WellFounded (HashBelow strings) := by
  have hacc (n : Nat) (hash : Hash)
      (h : ∀ bytes ∈ strings, Blake3.digest bytes = hash → rank bytes < n) :
      Acc (HashBelow strings) hash := by
    induction n generalizing hash with
    | zero =>
      refine ⟨hash, fun hash' hbelow ↦ ?_⟩
      obtain ⟨bytes, hbytes, hhash, -⟩ := hbelow
      exact absurd (h bytes hbytes hhash) (Nat.not_lt_zero _)
    | succ n ih =>
      refine ⟨hash, fun hash' hbelow ↦ ih hash' fun bytes' hbytes' hhash' ↦ ?_⟩
      obtain ⟨bytes, hbytes, hhash, hinfix⟩ := hbelow
      rw [← hhash'] at hinfix
      exact (hrank bytes hbytes bytes' hbytes' hinfix).trans_le
        (Nat.le_of_lt_succ (h bytes hbytes hhash))
  exact ⟨fun hash ↦ hacc top hash fun bytes hbytes _ ↦ htop bytes hbytes⟩

omit [Blake3] in
/-- The bytes of a node contain the hashes of its children. -/
theorem isInfix_bytes {node : TreeNode} {name : Str} (h : node.children[name]? = some hash) :
    hash.toList <:+: node.bytes := by
  have hmem : (name, hash) ∈ node.children.toList :=
    ExtTreeMap.mem_toList_iff_getElem?_eq_some.mpr h
  obtain ⟨before, after, heq⟩ := List.append_of_mem hmem
  rw [TreeNode.bytes, nodeBytes, heq, List.flatMap_append, List.flatMap_cons]
  refine List.IsInfix.trans ?_ (List.suffix_append _ _).isInfix
  refine List.IsInfix.trans ?_ (List.suffix_append _ _).isInfix
  refine List.IsInfix.trans ?_ (List.prefix_append _ _).isInfix
  exact (List.suffix_append _ _).isInfix

end Lilsync
