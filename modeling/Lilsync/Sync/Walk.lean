import Lilsync.State

/-!
# Pulling from a peer

`sync.rs`: the walk over the tree of a peer, from the root it has advertised down
to the nodes that differ from the local ones, and the entries that are fetched
and applied on the way.

What the peer answers, how downloads end and what the other tasks of the daemon
do to the folder state while this one waits for its lock are given by a `Peer`;
the answers may be anything.
-/

namespace Lilsync

open Std (ExtTreeMap)
open Lilsync.Lib

/-! ## What comes from outside -/

/-- A peer as the walk finds it, and the tasks that run beside the walk. -/
structure Peer (W : Type) where
  /-- `RpcClient::get_node`. -/
  getNode : Str → Fs W (Option TreeNode)
  /-- `RpcClient::get_entries`. -/
  getEntries : Str → Fs W (List Entry)
  /-- `fetch_object_once`: nothing if another task has claimed the target. -/
  fetchObjectOnce : Hash → Entry → Fs W (Option PathBuf)
  /-- The order in which so many spawned tasks end. -/
  joinOrder : (n : Nat) → Fs W (Equiv.Perm (Fin n))
  /-- What other tasks do to the node before this one gets the lock. -/
  otherTasks : Node W → Node W

/-- `TreeHint`: nodes that came with the announcement. -/
structure TreeHint where
  nodes : List TreeNode

/-- `RemoteRoot`: what a peer has advertised. -/
structure RemoteRoot where
  stateRoot : Hash
  hint : Option TreeHint

/-- The errors of a walk; all but the first are `io::Error::other` with a message. -/
inductive SyncError where
  | io (err : IoError)
  /-- `peer {} did not return node for prefix {prefix:?}` -/
  | missingNode (pfx : Str)
  /-- `peer {} returned stale node {}: expected {}, got {}` -/
  | staleNode (pfx : Str) (expected got : Hash)
  /-- `peer {} did not return entry {path}` -/
  | missingEntry (path : Str)
  /-- `peer {} returned stale entry {path}: expected {}, got {}` -/
  | staleEntry (path : Str) (expected got : Hash)
  /-- `remote file {} has no content hash` -/
  | missingContentHash (path : Str)
deriving DecidableEq

/-! ## Programs -/

/-- A node of the peer's tree that the walk goes by. -/
structure TakenNode where
  pfx : Str
  /-- The hash its parent has listed, or the advertised root. -/
  expected : Hash
  node : TreeNode
  /-- It came with the announcement, not from `get_node`. -/
  hinted : Bool

/-- A node that pulls from a peer. -/
structure Pull (W : Type) where
  node : Node W
  /-- Ghost: the nodes that were taken for the peer's, the latest first.  No function
  reads it. -/
  taken : List TakenNode
  /-- Ghost: the entries handed to `apply_remote_entries`. -/
  handed : List Entry

/-- Programs of a node that pulls. -/
abbrev PullM (W : Type) := Proc SyncError (Pull W)

namespace PullM

variable {W α : Type}

/-- Run a program of the node. -/
def onNode (m : NodeM W α) : PullM W α :=
  Proc.ofExec fun p ↦
    ((Proc.exec m p.node).1.mapError .io, { p with node := (Proc.exec m p.node).2 })

/-- Ask the peer. -/
def ask (m : Fs W α) : PullM W α := onNode (NodeM.fs m)

/-- Get the lock of the folder state: other tasks may have had it in between. -/
def lock (peer : Peer W) : PullM W FolderState :=
  Proc.ofExec fun p ↦
    let node := peer.otherTasks p.node
    (.ok node.folder, { p with node })

end PullM

/-! ## Paths and hints -/

/-- `join_path`. -/
def joinPath (pfx name : Str) : Str :=
  let pfx := normalizePrefix pfx
  if pfx = [] then name else pfx ++ slash :: name

/-- `FolderState::node`. -/
def FolderState.node (folder : FolderState) (pfx : Str) : Option TreeNode :=
  folder.tree.nodes[normalizePrefix pfx]?

/-- `tree_node_hash`. -/
def treeNodeHash [Blake3] (node : TreeNode) : Hash :=
  hashNode node.nodePrefix node.entries node.children

/-- `HintedNodes`, by normalized prefix. -/
abbrev HintedNodes := BTreeMap Str TreeNode

/-- `HintedNodes::from`: hints whose hash is not their own are dropped. -/
def HintedNodes.ofHint [Blake3] (hint : TreeHint) : HintedNodes :=
  ExtTreeMap.ofList <| (hint.nodes.filter fun node ↦ treeNodeHash node = node.hash).map
    fun node ↦ (normalizePrefix node.nodePrefix, node)

/-- `HintedNodes::get`. -/
def HintedNodes.get (hinted : HintedNodes) (pfx : Str) (expected : Hash) : Option TreeNode :=
  hinted[normalizePrefix pfx]?.filter fun node ↦ node.hash = expected

/-! ## The walk -/

section Walk

variable {W : Type} [FileSystem W] [Blake3] (peer : Peer W)

open PullM

/-- Apply entries under the lock. -/
def applyHanded (batch : List (Entry × Option PathBuf)) : PullM W (List Change) := do
  if batch = [] then pure []
  else
    let _ ← lock peer
    modify fun p ↦ { p with handed := p.handed ++ batch.map Prod.fst }
    onNode (applyRemoteEntries batch)

/-- One turn of the first loop of `reconcile_entries`: an entry of the remote node that
differs from the local one is looked up among those the peer has sent and checked. -/
def selectEntry (pfx : Str) (localNode : Option TreeNode) (allRemote : Index)
    (toApply : List Entry) (nameHash : Str × Hash) : PullM W (List Entry) := do
  let (name, remoteHash) := nameHash
  if (localNode.bind fun node ↦ node.entries[name]?) = some remoteHash then pure toApply
  else
    let path := joinPath pfx name
    match allRemote[path]? with
    | none => throw (.missingEntry path)
    | some remoteEntry =>
      if hashEntry remoteEntry ≠ remoteHash then
        throw (.staleEntry path remoteHash (hashEntry remoteEntry))
      else
        let folder ← lock peer
        if folder.shouldAcceptRemote remoteEntry then pure (toApply ++ [remoteEntry])
        else pure toApply

/-- One turn of the second loop: files are to be fetched, the rest is applied at once. -/
def sortEntry (st : List (Hash × Entry) × List (Entry × Option PathBuf)) (entry : Entry) :
    PullM W (List (Hash × Entry) × List (Entry × Option PathBuf)) :=
  if entry.kind = .file then
    match entry.contentHash with
    | none => throw (.missingContentHash entry.path)
    | some contentHash => pure (st.1 ++ [(contentHash, entry)], st.2)
  else pure (st.1, st.2 ++ [(entry, none)])

/-- One turn of the third loop: the next task that has ended. -/
def joinNext (fileBatch : List (Entry × Option PathBuf)) (file : Hash × Entry) :
    PullM W (List (Entry × Option PathBuf)) := do
  match ← ask (peer.fetchObjectOnce file.1 file.2) with
  | none => pure fileBatch
  | some tmpPath => pure (fileBatch ++ [(file.2, some tmpPath)])

/-- `reconcile_entries`. -/
def reconcileEntries (pfx : Str) (localNode : Option TreeNode) (remoteNode : TreeNode) :
    PullM W (List Change) := do
  let allRemote := indexOf (← ask (peer.getEntries pfx))
  let toApply ← remoteNode.entries.toList.foldlM (selectEntry peer pfx localNode allRemote) []
  let (files, nonFileBatch) ← toApply.foldlM sortEntry ([], [])
  let changes ← applyHanded peer nonFileBatch
  let order ← ask (peer.joinOrder files.length)
  let fileBatch ← (List.ofFn fun i ↦ files.get (order i)).foldlM (joinNext peer) []
  let fileChanges ← applyHanded peer fileBatch
  pure (changes ++ fileChanges)

/-- `queue_changed_children`: push the children that differ from the local ones. -/
def queueChangedChildren (pfx : Str) (localNode : Option TreeNode) (remoteNode : TreeNode)
    (stack : List (Str × Hash)) : List (Str × Hash) :=
  remoteNode.children.toList.foldl (fun stack (name, remoteHash) ↦
    if (localNode.bind fun node ↦ node.children[name]?) = some remoteHash then stack
    else (joinPath pfx name, remoteHash) :: stack) stack

/-- The node of the peer: the hint for it, or what the peer answers. -/
def remoteNodeFor (hinted : HintedNodes) (pfx : Str) (expected : Hash) :
    PullM W (TreeNode × Bool) := do
  match hinted.get pfx expected with
  | some node => pure (node, true)
  | none =>
    match ← ask (peer.getNode pfx) with
    | some node => pure (node, false)
    | none => throw (.missingNode pfx)

/-- `reconcile_node`: a node that differs from the local one is fetched, its entries are
applied, and its children go on the stack. -/
def reconcileNode (hinted : HintedNodes) (pfx : Str) (expected : Hash)
    (stack : List (Str × Hash)) : PullM W (List Change × List (Str × Hash)) := do
  let localNode := (← lock peer).node pfx
  if localNode.any fun node ↦ node.hash = expected then pure ([], stack)
  else
    let (remoteNode, isHinted) ← remoteNodeFor peer hinted pfx expected
    if remoteNode.hash ≠ expected then
      throw (.staleNode remoteNode.nodePrefix expected remoteNode.hash)
    else
      modify fun p ↦ { p with taken := ⟨pfx, expected, remoteNode, isHinted⟩ :: p.taken }
      let changes ← reconcileEntries peer pfx localNode remoteNode
      pure (changes, queueChangedChildren pfx localNode remoteNode stack)

/-- The loop of `reconcile_with_advertised_root`, for as many turns as there is fuel. -/
def reconcileLoop (hinted : HintedNodes) :
    Nat → List Change → List (Str × Hash) → PullM W (Option (List Change))
  | _, changes, [] => pure (some changes)
  | 0, _, _ :: _ => pure none
  | fuel + 1, changes, (pfx, remoteHash) :: stack => do
    let (nodeChanges, stack) ← reconcileNode peer hinted pfx remoteHash stack
    reconcileLoop hinted fuel (changes ++ nodeChanges) stack

/-- The end of `reconcile_with_advertised_root`: what has arrived below an accepted
tombstone in the meantime is swept up, and the index is saved. -/
def finishReconcile (changes : List Change) : PullM W Unit := do
  let root := (← lock peer).root
  let tombstoned := (changes.filter fun c ↦ c.new.kind = .tombstone).map fun c ↦ root.join c.path
  if tombstoned ≠ [] then
    let _ ← lock peer
    let _ ← onNode (Proc.attempt (applyPaths tombstoned))
  if changes ≠ [] then
    let _ ← lock peer
    onNode saveEntries

/-- `reconcile_with_advertised_root`, with fuel for its loop; nothing if that was not
enough. -/
def reconcileWithAdvertisedRoot (fuel : Nat) (remote : RemoteRoot) :
    PullM W (Option (List Change)) := do
  let localRoot := (← lock peer).tree.rootHash
  if localRoot = remote.stateRoot then pure (some [])
  else
    let hinted := (remote.hint.map HintedNodes.ofHint).getD ∅
    match ← reconcileLoop peer hinted fuel [] [([], remote.stateRoot)] with
    | none => pure none
    | some changes =>
      finishReconcile peer changes
      pure (some changes)

end Walk

end Lilsync
