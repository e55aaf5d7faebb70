import Lilsync.Entries

/-!
# The Merkle tree over the index

`tree.rs`: a node for every directory of the index, holding the hashes of the
entries directly in it and of the nodes directly below it.  The tree is derived
from scratch (`deriveTreeWith`) or brought up to date for a list of changed
paths (`updateTreeSnapshot`), in both cases for the entries an inclusion filter
lets through.

What BLAKE3 digests is the encoding the program feeds to it, byte for byte.
-/

namespace Lilsync

open Std (ExtTreeMap)
open Lilsync.Lib

/-! ## Paths of nodes -/

/-- `parent_path`. -/
def parentPath (path : Str) : Str := SlashPath.parent slash path

/-- `basename`. -/
def basename (path : Str) : Str := SlashPath.base slash path

/-- `ancestors`: the parent, its parent and so on up to the empty path. -/
def ancestors (path : Str) : List Str := SlashPath.ancestors slash path

/-- `display_prefix`. -/
def displayPrefix (path : Str) : Str :=
  if path = [] then lit "/" else slash :: path ++ [slash]

/-- `normalize_prefix`: trim the slashes on both sides. -/
def normalizePrefix (pfx : Str) : Str :=
  ((pfx.dropWhile (· == slash)).reverse.dropWhile (· == slash)).reverse

/-! ## Encodings -/

/-- The `width` low bytes of a number, most significant first. -/
def toBeBytes (width n : Nat) : List UInt8 :=
  (List.range width).reverse.map fun i ↦ (n >>> (8 * i)).toUInt8

/-- `encode_str`: the length, then the bytes. -/
def encodeStr (value : Str) : List UInt8 := toBeBytes 8 value.length ++ value

/-- `encode_opt_hash`, `encode_opt_str` and `encode_opt_u32`: a tag, then the
encoded value if there is one. -/
def encodeOpt {α : Type} (encode : α → List UInt8) : Option α → List UInt8
  | some value => 1 :: encode value
  | none => [0]

section Hashing

variable [Blake3]

/-- `hash_entry`. -/
def hashEntry (entry : Entry) : Hash :=
  Blake3.digest <|
    encodeStr (lit "lil-entry-v1")
      ++ encodeStr entry.path
      ++ encodeStr entry.kind.asStr
      ++ encodeOpt Vector.toList entry.contentHash
      ++ encodeOpt encodeStr entry.symlinkTarget
      ++ toBeBytes 8 entry.size
      ++ encodeOpt (fun mode ↦ toBeBytes 4 mode.toNat) entry.mode
      ++ toBeBytes 8 entry.version.lamport
      ++ encodeStr entry.version.origin

/-- `hash_node`. -/
def hashNode (pfx : Str) (entries children : BTreeMap Str Hash) : Hash :=
  Blake3.digest <|
    lit "lil-node-v1"
      ++ encodeStr pfx
      ++ (entries.toList.flatMap fun (name, hash) ↦
        encodeStr (lit "entry") ++ encodeStr name ++ hash.toList)
      ++ (children.toList.flatMap fun (name, hash) ↦
        encodeStr (lit "child") ++ encodeStr name ++ hash.toList)

end Hashing

/-! ## Nodes and snapshots -/

/-- A directory of the tree. -/
structure TreeNode where
  nodePrefix : Str
  entries : BTreeMap Str Hash
  children : BTreeMap Str Hash
  hash : Hash
deriving DecidableEq

/-- A whole tree: its nodes by path and the hash of the root. -/
structure TreeSnapshot where
  rootHash : Hash
  nodes : BTreeMap Str TreeNode
deriving DecidableEq

/-- The hash of no node. -/
def zeroHash : Hash := Vector.replicate 32 0

/-- A node as the walk over the directories first makes it. -/
def TreeNode.blank (path : Str) : TreeNode :=
  ⟨displayPrefix path, ∅, ∅, zeroHash⟩

/-- The hash found at the root of a set of nodes. -/
def rootHashOf (nodes : BTreeMap Str TreeNode) : Hash :=
  (nodes[([] : Str)]?.map TreeNode.hash).getD zeroHash

variable [Blake3]

/-- A node with the given content and the hash that goes with it. -/
def TreeNode.mk' (path : Str) (entries children : BTreeMap Str Hash) : TreeNode :=
  ⟨displayPrefix path, entries, children, hashNode (displayPrefix path) entries children⟩

/-- `TreeSnapshot::empty`. -/
def TreeSnapshot.empty : TreeSnapshot :=
  let root := hashNode (lit "/") ∅ ∅
  { rootHash := root, nodes := (∅ : BTreeMap Str TreeNode).insert [] ⟨lit "/", ∅, ∅, root⟩ }

/-! ## Derivation from scratch -/

/-- `extend` a set by the ancestors of a path. -/
def extendAncestors (paths : BTreeSet Str) (path : Str) : BTreeSet Str :=
  (ancestors path).foldl (fun s a ↦ s.insert a) paths

/-- Add the paths an included entry needs nodes for. -/
def addNodePaths (incl : Entry → Bool) (paths : BTreeSet Str) (entry : Entry) : BTreeSet Str :=
  if incl entry then
    let paths := extendAncestors paths entry.path
    if entry.kind = .dir then paths.insert entry.path else paths
  else paths

/-- The directories the derived tree has a node for: the root, every ancestor
of an included entry and every included directory. -/
def nodePaths (entries : Index) (incl : Entry → Bool) : BTreeSet Str :=
  (OrdMap.values entries).foldl (addNodePaths incl) ((∅ : BTreeSet Str).insert [])

/-- Record an included entry in the node of its parent. -/
def addEntry (incl : Entry → Bool) (partials : BTreeMap Str TreeNode) (entry : Entry) :
    BTreeMap Str TreeNode :=
  if incl entry then
    partials.modify (parentPath entry.path) fun node ↦
      { node with entries := node.entries.insert (basename entry.path) (hashEntry entry) }
  else partials

/-- The nodes with their entries filled in, their children still missing. -/
def partialNodes (entries : Index) (incl : Entry → Bool) (paths : BTreeSet Str) :
    BTreeMap Str TreeNode :=
  (OrdMap.values entries).foldl (addEntry incl)
    (paths.toList.foldl (fun partials path ↦ partials.insert path (TreeNode.blank path)) ∅)

/-- The paths of nodes other than the root, under their parents. -/
def childrenOf (paths : BTreeSet Str) : BTreeMap Str (List Str) :=
  OrdMap.pushUnder parentPath ∅ (paths.toList.filter (· ≠ []))

/-- Record a child under its name if its hash has been computed. -/
def addChild (hashes children : BTreeMap Str Hash) (child : Str) : BTreeMap Str Hash :=
  match hashes[child]? with
  | some hash => children.insert (basename child) hash
  | none => children

/-- Give a node its children, from the hashes computed so far, and its hash. -/
def finishNode (childPaths : List Str) (hashes : BTreeMap Str Hash) (node : TreeNode) : TreeNode :=
  let children := childPaths.foldl (addChild hashes) ∅
  { node with children, hash := hashNode node.nodePrefix node.entries children }

/-- One turn of the bottom-up loop of `derive_tree_with`.  Every visited path
has a partial node: both come from the same set. -/
def deriveStep (childrenOf : BTreeMap Str (List Str))
    (st : BTreeMap Str TreeNode × BTreeMap Str Hash) (path : Str) :
    BTreeMap Str TreeNode × BTreeMap Str Hash :=
  match st.1[path]? with
  | some node =>
    let node := finishNode (childrenOf[path]?.getD []) st.2 node
    (st.1.insert path node, st.2.insert path node.hash)
  | none => st

/-- `derive_tree_with`. -/
def deriveTreeWith (entries : Index) (incl : Entry → Bool) : TreeSnapshot :=
  let paths := nodePaths entries incl
  let st := paths.toList.reverse.foldl (deriveStep (childrenOf paths))
    (partialNodes entries incl paths, ∅)
  { rootHash := st.2[([] : Str)]?.getD zeroHash, nodes := st.1 }

/-- Every entry is included. -/
def inclAll : Entry → Bool := fun _ ↦ true

/-- Tombstones are left out. -/
def inclLive : Entry → Bool := fun entry ↦ entry.kind ≠ .tombstone

/-- `derive_tree`. -/
def deriveTree (entries : Index) : TreeSnapshot := deriveTreeWith entries inclAll

/-- `derive_live_tree`. -/
def deriveLiveTree (entries : Index) : TreeSnapshot := deriveTreeWith entries inclLive

/-! ## Incremental update -/

/-- The index holds an included entry at the path. -/
def isIncluded (entries : Index) (incl : Entry → Bool) (path : Str) : Bool :=
  entries[path]?.any incl

/-- The changed paths and their ancestors. -/
def changedAndAncestors (changedPaths : List Str) : BTreeSet Str :=
  changedPaths.foldl (fun dirty path ↦ extendAncestors (dirty.insert path) path) ∅

/-- Add what lies below a changed node that is no longer included. -/
def addDescendants (nodes : BTreeMap Str TreeNode) (entries : Index) (incl : Entry → Bool)
    (dirty : BTreeSet Str) (path : Str) : BTreeSet Str :=
  if path ∉ nodes then dirty
  else if isIncluded entries incl path then dirty
  else
    let descendants := nodes.keys.filter fun k ↦ SlashPath.Below slash path k
    descendants.foldl (fun dirty desc ↦ (extendAncestors dirty desc).insert desc) dirty

/-- The paths whose nodes are computed anew: `changedAndAncestors`, and for a
changed node that is no longer included everything below it. -/
def dirtyPaths (snapshot : TreeSnapshot) (entries : Index) (changedPaths : List Str)
    (incl : Entry → Bool) : BTreeSet Str :=
  changedPaths.foldl (addDescendants snapshot.nodes entries incl)
    (changedAndAncestors changedPaths)

/-- The included entries under their parents. -/
def byParent (entries : Index) (incl : Entry → Bool) : BTreeMap Str (List Entry) :=
  OrdMap.pushUnder (fun entry ↦ parentPath entry.path) ∅ ((OrdMap.values entries).filter incl)

/-- The paths of nodes, present or dirty, under their parents. -/
def childKeys (snapshot : TreeSnapshot) (dirty : BTreeSet Str) : BTreeMap Str (BTreeSet Str) :=
  OrdMap.insertUnder parentPath ∅ ((snapshot.nodes.keys ++ dirty.toList).filter (· ≠ []))

/-- What the bottom-up pass puts at a dirty path: a node if it is the root or
has content, nothing otherwise. -/
def updatedNode (byParent : BTreeMap Str (List Entry)) (childKeys : BTreeMap Str (BTreeSet Str))
    (nodes : BTreeMap Str TreeNode) (nodePath : Str) : Option TreeNode :=
  let directEntries : BTreeMap Str Hash := ExtTreeMap.ofList <|
    (byParent[nodePath]?.getD []).map fun e ↦ (basename e.path, hashEntry e)
  let directChildren : BTreeMap Str Hash := ExtTreeMap.ofList <|
    (childKeys[nodePath]?.getD ∅).toList.filterMap fun k ↦
      nodes[k]?.map fun v ↦ (basename k, v.hash)
  if nodePath = [] ∨ directEntries ≠ ∅ ∨ directChildren ≠ ∅ then
    some (TreeNode.mk' nodePath directEntries directChildren)
  else none

/-- `update_tree_snapshot`. -/
def updateTreeSnapshot (snapshot : TreeSnapshot) (entries : Index) (changedPaths : List Str)
    (incl : Entry → Bool) : TreeSnapshot :=
  let dirty := dirtyPaths snapshot entries changedPaths incl
  let nodes := OrdMap.pass (updatedNode (byParent entries incl) (childKeys snapshot dirty))
    snapshot.nodes dirty.toList.reverse
  { rootHash := rootHashOf nodes, nodes }

end Lilsync
