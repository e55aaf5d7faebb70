import Lilsync.Sync.Serves

/-!
# A pull that succeeds misses nothing

The walk leaves out what is below a node with the hash of the local one, and below a
child that the local node lists with the same hash.  The local node is the one from
before the entries were applied, and while they are applied what lies below it may be
buried.  But what was equal when the walk came by stays caught up with, and so each
entry of the peer is caught up with or still lies below something on the stack.

The nodes on the stack are nodes of the peer's tree, whatever the hint says: a hint is
only taken if it has the hash that was asked for.
-/

namespace Lilsync

open Std (ExtTreeMap)
open Lilsync.Lib Lilsync.Lib.Proc Lilsync.Lib.SlashPath

variable [Blake3] {W : Type} {peer : Peer W} {history : Set FolderState}
  {remote folder : FolderState} {p p' : Pull W} {S : Set TreeNode} {E : Set Entry} {pfx : Str}
  {expected : Hash} {stack rest : List (Str × Hash)} {hinted : HintedNodes}
  {changes cs : List Change}

/-! ## What is hashed -/

/-- The entries of the index. -/
def FolderState.entrySet (folder : FolderState) : Set Entry :=
  {e | ∃ k : Str, folder.entries[k]? = some e}

/-- The tree and the index are made of the given nodes and entries. -/
structure FolderState.Within (folder : FolderState) (S : Set TreeNode) (E : Set Entry) : Prop where
  nodes : folder.tree.nodeSet ⊆ S
  entries : folder.entrySet ⊆ E

omit [Blake3] in
theorem FolderState.Within.fed_subset (h : folder.Within S E) :
    fed folder.tree folder.entries inclAll ⊆ stringsOf S E := by
  rintro bytes (⟨e, he, rfl⟩ | ⟨k, node, hnode, rfl⟩)
  · exact .inr ⟨e, h.entries he.1, rfl⟩
  · exact .inl ⟨node, h.nodes ⟨k, hnode⟩, rfl⟩

theorem FolderState.Within.allFit (h : folder.Within S E) (hfree : WithoutCollision S E) :
    AllFit folder.entries := fun k _ he ↦ hfree.entries _ (h.entries ⟨k, he⟩)

/-- Below a node with the hash of a node of the peer, nothing is missing. -/
theorem caughtUp_of_hash_eq (hfree : WithoutCollision S E) (hR : remote.UpToDate)
    (hremote : remote.Within S E) (hp : p.node.InOrder) (hlocal : p.node.folder.Within S E)
    {e : Entry} (he : remote.entries[e.path]? = some e) {k : Str} (hk : k ∈ ancestors e.path)
    {node localNode : TreeNode} (hnode : remote.tree.nodes[k]? = some node)
    (hlocalNode : p.node.folder.tree.nodes[k]? = some localNode) (hhash : localNode.hash = node.hash) :
    Replica.CaughtUp p.node.folder.toReplica e := by
  have hinj := hfree.injOn.mono (Set.union_subset hremote.fed_subset hlocal.fed_subset)
  have hincluded := WellFormed.included_of_hash_eq hR.keyed hp.upToDate.keyed hR.tree
    hp.upToDate.tree (hremote.allFit hfree) (hlocal.allFit hfree) hinj ⟨⟨_, he⟩, rfl⟩ hk hnode
    hlocalNode hhash.symm
  exact hp.regular.caughtUp (hincluded.getElem? hp.upToDate.keyed)

/-! ## A turn of the walk -/

/-- A path of a node is not trimmed. -/
theorem FolderState.UpToDate.node_eq (h : remote.UpToDate) {node : TreeNode}
    (hnode : remote.tree.nodes[pfx]? = some node) (folder : FolderState) :
    folder.node pfx = folder.tree.nodes[pfx]? := by
  have hpfx : normalizePrefix pfx = pfx := by
    have hmem : pfx ∈ remote.tree.nodes := ExtTreeMap.mem_iff_isSome_getElem?.mpr (by simp [hnode])
    rcases h.tree.proper h.keyed hmem with rfl | hproper
    · rfl
    · exact normalizePrefix_of_proper hproper
  rw [FolderState.node, hpfx]

/-- The node that is taken for one of the peer's tree has its hash. -/
theorem of_exec_remoteNodeFor (hs : peer.Serves history) (hchecked : hinted.Checked)
    {taken : TreeNode × Bool}
    (h : exec (remoteNodeFor peer hinted pfx expected) p = (.ok taken, p')) :
    p.Waits p' ∧ treeNodeHash taken.1 = taken.1.hash := by
  rw [remoteNodeFor] at h
  split at h
  · next node hnode =>
    cases h
    exact ⟨.refl p, hchecked _ node (Option.filter_eq_some_iff.mp hnode).1⟩
  · obtain ⟨answer, p₁, hask, h⟩ := of_exec_bind h
    obtain ⟨hwaits, w, hanswer⟩ := of_exec_ask hask
    cases answer with
    | none => cases h
    | some node =>
      cases h
      obtain ⟨remote, hmem, hnode⟩ := hs.getNode hanswer
      exact ⟨hwaits, ((hs.upToDate remote hmem).tree.isNode hnode.symm).hash_eq.symm⟩

variable [FileSystem W]

/-- A turn that succeeds leaves out what is equal, or it takes a node with the hash that was
asked for, catches up with its entries and queues its children. -/
theorem of_exec_reconcileNode (hs : peer.Serves history) (hchecked : hinted.Checked)
    (h : exec (reconcileNode peer hinted pfx expected stack) p = (.ok (cs, rest), p')) :
    let q := p.locked peer
    (p' = q ∧ rest = stack ∧ ∃ node ∈ q.node.folder.node pfx, node.hash = expected) ∨
    ∃ (node : TreeNode) (q' : Pull W), treeNodeHash node = expected ∧ node ∈ q'.nodes ∧
      q.node.GoesOn q'.node ∧
      exec (reconcileEntries peer pfx (q.node.folder.node pfx) node) q' = (.ok cs, p') ∧
      rest = queueChangedChildren pfx (q.node.folder.node pfx) node stack := by
  intro q
  rw [reconcileNode, exec_bind_ok (exec_lock peer p)] at h
  dsimp only at h
  split at h
  · next hsame =>
    obtain ⟨node, hnode, hhash⟩ := (Option.any_eq_true _ _).mp hsame
    cases h
    exact .inl ⟨rfl, rfl, node, hnode, of_decide_eq_true hhash⟩
  · obtain ⟨⟨node, isHinted⟩, p₁, hfor, h⟩ := of_exec_bind h
    obtain ⟨hwaits, hrecomputed⟩ := of_exec_remoteNodeFor hs hchecked hfor
    dsimp only at h hrecomputed
    split at h
    · cases h
    · next hhash =>
      rw [exec_modify_bind] at h
      obtain ⟨cs', p₂, hentries, h⟩ := of_exec_bind h
      cases h
      let q' : Pull W := { p₁ with taken := ⟨pfx, expected, node, isHinted⟩ :: p₁.taken }
      have hmem : node ∈ q'.nodes := ⟨_, List.mem_cons_self, rfl⟩
      exact .inr ⟨node, q', hrecomputed.trans (not_not.mp hhash), hmem, hwaits.goesOn, hentries, rfl⟩

/-- What holds of a walk over the tree of the peer. -/
structure Walking (remote : FolderState) (p : Pull W) (stack : List (Str × Hash)) : Prop where
  inOrder : p.node.InOrder
  queued : ∀ item ∈ stack, ∃ node, remote.tree.nodes[item.1]? = some node ∧ node.hash = item.2
  covered : ∀ e : Entry, remote.entries[e.path]? = some e →
    Replica.CaughtUp p.node.folder.toReplica e ∨ ∃ item ∈ stack, item.1 ∈ ancestors e.path

omit [FileSystem W] in
/-- The walk starts at the root. -/
theorem walking_start (hR : remote.UpToDate) {n : Node W} (hn : n.InOrder) :
    Walking remote (.start n) [([], remote.tree.rootHash)] where
  inOrder := hn
  queued := by
    obtain ⟨node, hnode⟩ :=
      Option.isSome_iff_exists.mp (ExtTreeMap.mem_iff_isSome_getElem?.mp hR.tree.root_mem)
    refine List.forall_mem_singleton.mpr ⟨node, hnode, ?_⟩
    rw [hR.tree.rootHash_eq, rootHashOf, hnode]
    rfl
  covered e _ := .inr ⟨_, List.mem_singleton_self _, nil_mem_ancestors _⟩

omit [FileSystem W] in
/-- What a node of the peer lists is caught up with when the turn is over, unless it is below
a child that was queued. -/
theorem Walking.covered_of_listed (hfree : WithoutCollision S E) (hR : remote.UpToDate)
    (hremote : remote.Within S E) (hp : p.node.InOrder) (hlocal : p.node.folder.Within S E)
    (hgoes : p.node.GoesOn p'.node) {node : TreeNode} (hnode : remote.tree.nodes[pfx]? = some node)
    (hentries : ∀ e : Entry, remote.entries[e.path]? = some e → parentPath e.path = pfx →
      ((p.node.folder.node pfx).bind fun node ↦ node.entries[basename e.path]?) =
          some (hashEntry e) ∨ Replica.CaughtUp p'.node.folder.toReplica e)
    (hchildren : ∀ name hash, node.children[name]? = some hash →
      ((p.node.folder.node pfx).bind fun node ↦ node.children[name]?) = some hash ∨
        (joinPath pfx name, hash) ∈ rest)
    {e : Entry} (he : remote.entries[e.path]? = some e) (habove : pfx ∈ ancestors e.path) :
    Replica.CaughtUp p'.node.folder.toReplica e ∨ ∃ item ∈ rest, item.1 ∈ ancestors e.path := by
  have hpfx := hR.node_eq hnode p.node.folder
  by_cases hparent : parentPath e.path = pfx
  · -- the entry is listed in the node
    rcases hentries e he hparent with hsame | hcaught
    · obtain ⟨localNode, hlocalNode, hsame⟩ := Option.bind_eq_some_iff.mp hsame
      rw [hpfx] at hlocalNode
      obtain ⟨x, hx, -, -, hhash⟩ := (hp.upToDate.tree.isNode hlocalNode).entries_iff.mp hsame
      obtain rfl := hfree.entry_eq (hlocal.entries hx.1) (hremote.entries ⟨_, he⟩) hhash
      have hheld := hx.getElem? hp.upToDate.keyed
      exact .inl ((hp.regular.caughtUp hheld).advances hgoes.advances)
    · exact .inl hcaught
  · -- the entry is below a child
    obtain ⟨c, hne, hc, hbelow⟩ := exists_child_of_mem_ancestors habove hparent
    have hcmem : c ∈ remote.tree.nodes := hR.tree.mem_of_spine (.inr ⟨e, ⟨⟨_, he⟩, rfl⟩, hbelow⟩)
    have habove' : c ∈ ancestors e.path := mem_ancestors_iff.mpr (.inr hbelow)
    obtain ⟨m, hm⟩ := Option.isSome_iff_exists.mp (ExtTreeMap.mem_iff_isSome_getElem?.mp hcmem)
    have hjoin : joinPath pfx (basename c) = c := by
      rw [← show parentPath c = pfx from hc]
      exact joinPath_parent_base ((hR.tree.proper hR.keyed hcmem).resolve_left hne)
    have hlists := (hR.tree.isNode hnode).children_iff.mpr ⟨c, m, hne, hm, hc, rfl, rfl⟩
    rcases hchildren _ _ hlists with hsame | hqueued
    · obtain ⟨localNode, hlocalNode, hsame⟩ := Option.bind_eq_some_iff.mp hsame
      rw [hpfx] at hlocalNode
      obtain ⟨m', hm', hhash', -⟩ :=
        hp.upToDate.tree.of_mem_children hp.upToDate.keyed hlocalNode hsame
      rw [hjoin] at hm'
      have hcaught := caughtUp_of_hash_eq hfree hR hremote hp hlocal he habove' hm hm' hhash'
      exact .inl (hcaught.advances hgoes.advances)
    · rw [hjoin] at hqueued
      exact .inr ⟨_, hqueued, habove'⟩

/-- What a turn of the walk keeps.  In place of the item at the top there may be others
below it. -/
theorem Walking.turn (h : Walking remote p ((pfx, expected) :: stack))
    (hs : peer.Serves history) (hmem : remote ∈ history) (hchecked : hinted.Checked)
    (hfree : WithoutCollision S E) (hhistory : ∀ remote ∈ history, remote.Within S E)
    (hlocal : (p.locked peer).node.folder.Within S E) (htaken : p'.nodes ⊆ S)
    (hr : exec (reconcileNode peer hinted pfx expected stack) p = (.ok (cs, rest), p')) :
    p.node.GoesOn p'.node ∧ Walking remote p' rest ∧
      ∃ queued, rest = queued ++ stack ∧ ∀ item ∈ queued, pfx.length < item.1.length := by
  have hR := hs.upToDate remote hmem
  have hremote := hhistory remote hmem
  obtain ⟨node, hnode, hhash⟩ := h.queued _ List.mem_cons_self
  dsimp only at hnode hhash
  have hlocked := hs.waits_locked p
  have hp := hlocked.inOrder h.inOrder
  have hstack : ∀ item ∈ stack, ∃ node, remote.tree.nodes[item.1]? = some node ∧
      node.hash = item.2 := fun item hitem ↦ h.queued item (List.mem_cons_of_mem _ hitem)
  rcases of_exec_reconcileNode hs hchecked hr with
    ⟨rfl, rfl, localNode, hlocalNode, hsame⟩ | ⟨taken, q, hrecomputed, hmem, hq, hentries, hrest⟩
  · rw [hR.node_eq hnode] at hlocalNode
    refine ⟨hlocked.goesOn, ⟨hp, hstack, fun e he ↦ ?_⟩, [], rfl,
      fun _ hitem ↦ absurd hitem List.not_mem_nil⟩
    obtain hcaught | ⟨item, hitem, habove⟩ := h.covered e he
    · exact .inl (hcaught.advances hlocked.goesOn.advances)
    · obtain rfl | hitem := List.mem_cons.mp hitem
      · exact .inl (caughtUp_of_hash_eq hfree hR hremote hp hlocal he habove hnode hlocalNode
          (hsame.trans hhash.symm))
      · exact .inr ⟨item, hitem, habove⟩
  · obtain ⟨hwaits, hlisted⟩ := of_exec_reconcileEntries hs (hq.inOrder hp) hentries
    have hgoes' := hq.trans hwaits.goesOn
    have hgoes := hlocked.goesOn.trans hgoes'
    have hmem' : taken ∈ p'.nodes := by
      rw [Pull.nodes, hwaits.taken_eq]
      exact hmem
    -- the node that was taken lists what the node of the peer lists
    obtain ⟨hentriesEq, hchildrenEq⟩ := hfree.node_eq (htaken hmem') (hremote.nodes ⟨_, hnode⟩)
      (hrecomputed.trans (hhash.symm.trans (hR.tree.isNode hnode).hash_eq))
    obtain ⟨queued, hqueue, hqueued⟩ :=
      queueChangedChildren_eq pfx ((p.locked peer).node.folder.node pfx) taken stack
    rw [hqueue] at hrest
    have hchild : ∀ item ∈ queued, ∃ m, remote.tree.nodes[item.1]? = some m ∧ m.hash = item.2 ∧
        pfx.length < item.1.length := by
      intro item hitem
      obtain ⟨name, hash, rfl, hc, -⟩ := (hqueued item).mp hitem
      rw [hchildrenEq] at hc
      obtain ⟨m, hm, hhash, hne, hparent, -⟩ := hR.tree.of_mem_children hR.keyed hnode hc
      have hlt : (parentPath (joinPath pfx name)).length < (joinPath pfx name).length :=
        length_parent_lt hne
      exact ⟨m, hm, hhash, by rwa [hparent] at hlt⟩
    subst hrest
    refine ⟨hgoes, ⟨hgoes.inOrder h.inOrder, fun item hitem ↦ ?_, fun e he ↦ ?_⟩, queued, rfl,
      fun item hitem ↦ (hchild item hitem).elim fun m hm ↦ hm.2.2⟩
    · rcases List.mem_append.mp hitem with hitem | hitem
      · obtain ⟨m, hm, hhash, -⟩ := hchild item hitem
        exact ⟨m, hm, hhash⟩
      · exact hstack item hitem
    · obtain hcaught | ⟨item, hitem, habove⟩ := h.covered e he
      · exact .inl (hcaught.advances hgoes.advances)
      obtain rfl | hitem := List.mem_cons.mp hitem
      · refine Walking.covered_of_listed hfree hR hremote hp hlocal hgoes' hnode
          (fun x hx hparent ↦ ?_) (fun name hash hc ↦ ?_) he habove
        · have hentry : node.entries[basename x.path]? = some (hashEntry x) :=
            (hR.tree.isNode hnode).entries_iff.mpr ⟨x, ⟨⟨_, hx⟩, rfl⟩, hparent, rfl, rfl⟩
          refine (hlisted _ _ (hentriesEq ▸ hentry)).imp id ?_
          rintro ⟨remote', hmem', y, hy, -, hhash, hcaught⟩
          obtain rfl := hfree.entry_eq ((hhistory remote' hmem').entries ⟨_, hy⟩)
            (hremote.entries ⟨_, hx⟩) hhash
          exact hcaught
        · by_cases hsame : (((p.locked peer).node.folder.node pfx).bind
              fun node ↦ node.children[name]?) = some hash
          · exact .inl hsame
          · exact .inr (List.mem_append_left _ ((hqueued _).mpr
              ⟨name, hash, rfl, hchildrenEq ▸ hc, hsame⟩))
      · exact .inr ⟨item, List.mem_append_right _ hitem, habove⟩

/-! ## The walk -/

/-- The walk only comes by the given nodes and entries, for as long as it goes on. -/
def LoopWithin (peer : Peer W) (hinted : HintedNodes) (S : Set TreeNode) (E : Set Entry)
    (changes : List Change) (stack : List (Str × Hash)) (p : Pull W) : Prop :=
  ∀ fuel, let r := exec (reconcileLoop peer hinted fuel changes stack) p
    r.2.nodes ⊆ S ∧ (r.1 = .ok none → (r.2.locked peer).node.folder.Within S E)

theorem LoopWithin.of_cons {item : Str × Hash}
    (h : LoopWithin peer hinted S E changes (item :: stack) p) :
    (p.locked peer).node.folder.Within S E :=
  (h 0).2 rfl

theorem exec_reconcileLoop_succ
    (hr : exec (reconcileNode peer hinted pfx expected stack) p = (.ok (cs, rest), p'))
    (changes : List Change) (fuel : Nat) :
    exec (reconcileLoop peer hinted (fuel + 1) changes ((pfx, expected) :: stack)) p =
      exec (reconcileLoop peer hinted fuel (changes ++ cs) rest) p' := by
  rw [reconcileLoop, exec_bind_ok hr]

/-- More fuel than it takes changes nothing. -/
theorem exec_reconcileLoop_add {fuel : Nat}
    (h : (exec (reconcileLoop peer hinted fuel changes stack) p).1 ≠ .ok none) (k : Nat) :
    exec (reconcileLoop peer hinted (fuel + k) changes stack) p =
      exec (reconcileLoop peer hinted fuel changes stack) p := by
  induction fuel generalizing p changes stack with
  | zero =>
    cases stack with
    | nil => cases k <;> rfl
    | cons item stack => exact absurd rfl h
  | succ fuel ih =>
    cases stack with
    | nil => cases k <;> rfl
    | cons item stack =>
      obtain ⟨pfx, expected⟩ := item
      rw [Nat.add_right_comm]
      match hturn : exec (reconcileNode peer hinted pfx expected stack) p with
      | (.error err, p₁) => rw [reconcileLoop, reconcileLoop, exec_bind_error hturn, exec_bind_error hturn]
      | (.ok (nodeChanges, rest), p₁) =>
        rw [exec_reconcileLoop_succ hturn] at h ⊢
        rw [exec_reconcileLoop_succ hturn, ih h]

theorem LoopWithin.step (h : LoopWithin peer hinted S E changes ((pfx, expected) :: stack) p)
    (hr : exec (reconcileNode peer hinted pfx expected stack) p = (.ok (cs, rest), p')) :
    p'.nodes ⊆ S ∧ LoopWithin peer hinted S E (changes ++ cs) rest p' := by
  have hrest : LoopWithin peer hinted S E (changes ++ cs) rest p' := by
    intro fuel
    have hfuel := h (fuel + 1)
    rwa [exec_reconcileLoop_succ hr] at hfuel
  have hstate : (exec (reconcileLoop peer hinted 0 (changes ++ cs) rest) p').2 = p' := by
    cases rest <;> rfl
  exact ⟨hstate ▸ (hrest 0).1, hrest⟩

section Loop

variable (hs : peer.Serves history) (hmem : remote ∈ history) (hchecked : hinted.Checked)
  (hfree : WithoutCollision S E) (hhistory : ∀ remote ∈ history, remote.Within S E)

include hs hmem hchecked hfree hhistory

/-- A walk that gets to its end has caught up with all entries. -/
theorem Walking.of_exec_reconcileLoop (h : Walking remote p stack)
    (hwithin : LoopWithin peer hinted S E changes stack p) {fuel : Nat}
    (hr : exec (reconcileLoop peer hinted fuel changes stack) p = (.ok (some cs), p')) :
    p.node.GoesOn p'.node ∧ ∀ e : Entry, remote.entries[e.path]? = some e →
      Replica.CaughtUp p'.node.folder.toReplica e := by
  induction fuel generalizing p changes stack with
  | zero =>
    cases stack with
    | nil =>
      cases hr
      refine ⟨.of_folder_eq rfl, fun e he ↦ (h.covered e he).resolve_right ?_⟩
      rintro ⟨item, hitem, -⟩
      exact absurd hitem List.not_mem_nil
    | cons item stack => cases hr
  | succ fuel ih =>
    cases stack with
    | nil =>
      cases hr
      refine ⟨.of_folder_eq rfl, fun e he ↦ (h.covered e he).resolve_right ?_⟩
      rintro ⟨item, hitem, -⟩
      exact absurd hitem List.not_mem_nil
    | cons item stack =>
      obtain ⟨pfx, expected⟩ := item
      match hturn : exec (reconcileNode peer hinted pfx expected stack) p with
      | (.error err, p₁) =>
        rw [reconcileLoop, exec_bind_error hturn] at hr
        cases hr
      | (.ok (nodeChanges, rest), p₁) =>
        obtain ⟨htaken, hrest⟩ := hwithin.step hturn
        obtain ⟨hgoes, hwalking, -⟩ :=
          h.turn hs hmem hchecked hfree hhistory hwithin.of_cons htaken hturn
        rw [exec_reconcileLoop_succ hturn] at hr
        obtain ⟨hgoes', hcaught⟩ := ih hwalking hrest hr
        exact ⟨hgoes.trans hgoes', hcaught⟩

/-- The walk ends, for there are only so many nodes below one of the peer's tree. -/
theorem Walking.exists_fuel (h : Walking remote p stack)
    (hwithin : LoopWithin peer hinted S E changes stack p) :
    ∃ fuel, (exec (reconcileLoop peer hinted fuel changes stack) p).1 ≠ .ok none := by
  obtain ⟨top, htop⟩ := exists_length_le remote.tree.nodes
  -- the paths on the stack are the heads of a hydra, and grow up to the longest one
  have hwf : WellFounded fun pfx' pfx : Str ↦ top - pfx'.length < top - pfx.length :=
    InvImage.wf (fun pfx : Str ↦ top - pfx.length) Nat.lt_wfRel.wf
  induction hm : (stack.map Prod.fst : Multiset Str) using hwf.cutExpand.induction
    generalizing stack p changes with
  | _ heads ih =>
    cases stack with
    | nil => exact ⟨0, fun h ↦ by cases h⟩
    | cons item stack =>
      obtain ⟨pfx, expected⟩ := item
      match hturn : exec (reconcileNode peer hinted pfx expected stack) p with
      | (.error err, p₁) =>
        refine ⟨1, fun h ↦ ?_⟩
        rw [reconcileLoop, exec_bind_error hturn] at h
        cases h
      | (.ok (nodeChanges, rest), p₁) =>
        obtain ⟨htaken, hrest⟩ := hwithin.step hturn
        obtain ⟨-, hwalking, queued, rfl, hqueued⟩ :=
          h.turn hs hmem hchecked hfree hhistory hwithin.of_cons htaken hturn
        have hcut : Relation.CutExpand (fun pfx' pfx : Str ↦ top - pfx'.length < top - pfx.length)
            ((queued ++ stack).map Prod.fst : Multiset Str) heads := by
          subst hm
          rw [List.map_append]
          refine cutExpand_push (fun pfx' hmem ↦ ?_) (stack.map Prod.fst)
          obtain ⟨item, hitem, rfl⟩ := List.mem_map.mp hmem
          obtain ⟨node, hnode, -⟩ := hwalking.queued item (List.mem_append_left _ hitem)
          have hle := htop item.1 (ExtTreeMap.mem_iff_isSome_getElem?.mpr (by simp [hnode]))
          have hlt := hqueued item hitem
          change top - item.1.length < top - pfx.length
          omega
        obtain ⟨fuel, hfuel⟩ := ih _ hcut hwalking hrest rfl
        exact ⟨fuel + 1, by rwa [exec_reconcileLoop_succ hturn]⟩

end Loop

/-! ## The whole pull -/

/-- Nothing is forgotten. -/
def Pull.Advances (p p' : Pull W) : Prop :=
  Replica.Advances p.node.folder.toReplica p'.node.folder.toReplica

instance : IsPreorder (Pull W) Pull.Advances where
  refl _ := .refl _
  trans _ _ _ h h' := h.trans h'

/-- Neither is anything when the walk is over. -/
theorem advances_finishReconcile (hs : peer.Serves history) (changes : List Change) :
    Keeps Pull.Advances (finishReconcile peer changes) := by
  have hlock : Keeps Pull.Advances (PullM.lock peer) :=
    fun p ↦ (hs.waits_locked p).goesOn.advances
  have hsave : Keeps Pull.Advances (if changes ≠ [] then do
      let _ ← PullM.lock peer
      PullM.onNode saveEntries
    else pure ()) := by
    split
    · refine hlock.bind fun _ p ↦ ?_
      obtain ⟨n', hexec, hfolder⟩ := exec_saveFile_folder (lit "entries.bin")
        (fun folder store ↦ { store with entries := .saved folder.entries }) p.node
      rw [PullM.onNode, exec_ofExec, saveEntries, hexec, Pull.Advances]
      dsimp only
      rw [hfolder]
      exact .refl _
    · exact keeps_pure _
  rw [finishReconcile]
  refine hlock.bind fun folder ↦ ?_
  dsimp only
  split
  · refine hlock.bind fun _ ↦ Keeps.bind (fun p ↦ ?_) fun _ ↦ hsave
    obtain ⟨cs, hst⟩ := stamps_applyPaths ((changes.filter fun c ↦ c.new.kind = .tombstone).map
      fun c ↦ folder.root.join c.path) p.node
    exact Replica.advances_of_stamps hst
  · exact hsave

/-- The nodes of the peer at any time, those that are taken, and those of the local tree. -/
def Peer.hashedNodes (peer : Peer W) (history : Set FolderState) (root : RemoteRoot) (n : Node W) :
    Set TreeNode :=
  (⋃ remote ∈ history, remote.tree.nodeSet) ∪ ⋃ fuel, ((peer.pulled root n fuel).nodes ∪
    ((peer.pulled root n fuel).node.folder.tree.nodeSet ∪
      ((peer.pulled root n fuel).locked peer).node.folder.tree.nodeSet))

/-- The entries of the peer at any time and those of the local index. -/
def Peer.hashedEntries (peer : Peer W) (history : Set FolderState) (root : RemoteRoot)
    (n : Node W) : Set Entry :=
  (⋃ remote ∈ history, remote.entrySet) ∪ ⋃ fuel, ((peer.pulled root n fuel).node.folder.entrySet ∪
    ((peer.pulled root n fuel).locked peer).node.folder.entrySet)

section Whole

variable {root : RemoteRoot} {n : Node W}

theorem within_hashed_remote (peer : Peer W) (history : Set FolderState) (root : RemoteRoot)
    (n : Node W) : ∀ remote ∈ history,
      remote.Within (peer.hashedNodes history root n) (peer.hashedEntries history root n) :=
  fun _ hmem ↦ ⟨fun _ hnode ↦ .inl (Set.mem_biUnion hmem hnode),
    fun _ he ↦ .inl (Set.mem_biUnion hmem he)⟩

theorem within_hashed_pulled (peer : Peer W) (history : Set FolderState) (root : RemoteRoot)
    (n : Node W) (fuel : Nat) : (peer.pulled root n fuel).node.folder.Within
      (peer.hashedNodes history root n) (peer.hashedEntries history root n) where
  nodes _ hnode := .inr (Set.mem_iUnion.mpr ⟨fuel, .inr (.inl hnode)⟩)
  entries _ he := .inr (Set.mem_iUnion.mpr ⟨fuel, .inl he⟩)

theorem within_hashed_locked (peer : Peer W) (history : Set FolderState) (root : RemoteRoot)
    (n : Node W) (fuel : Nat) : ((peer.pulled root n fuel).locked peer).node.folder.Within
      (peer.hashedNodes history root n) (peer.hashedEntries history root n) where
  nodes _ hnode := .inr (Set.mem_iUnion.mpr ⟨fuel, .inr (.inr hnode)⟩)
  entries _ he := .inr (Set.mem_iUnion.mpr ⟨fuel, .inr he⟩)

/-- The hints that are considered. -/
def RemoteRoot.hints (root : RemoteRoot) : HintedNodes :=
  (root.hint.map HintedNodes.ofHint).getD ∅

omit [FileSystem W] in
theorem RemoteRoot.checked_hints (root : RemoteRoot) : root.hints.Checked := by
  rw [RemoteRoot.hints]
  cases root.hint with
  | none => exact fun k node hnode ↦ by simp at hnode
  | some hint => exact HintedNodes.checked_ofHint hint

/-- Where the roots are equal nothing is done. -/
theorem exec_reconcileWithAdvertisedRoot_of_eq
    (heq : (peer.otherTasks n).folder.tree.rootHash = root.stateRoot) (fuel : Nat) :
    exec (reconcileWithAdvertisedRoot peer fuel root) (.start n) =
      (.ok (some []), .start (peer.otherTasks n)) := by
  rw [reconcileWithAdvertisedRoot, exec_bind_ok (exec_lock peer _)]
  exact congrArg (exec · _) (if_pos heq)

theorem exec_reconcileWithAdvertisedRoot_of_ne
    (hne : (peer.otherTasks n).folder.tree.rootHash ≠ root.stateRoot) (fuel : Nat) :
    exec (reconcileWithAdvertisedRoot peer fuel root) (.start n) =
      match exec (reconcileLoop peer root.hints fuel [] [([], root.stateRoot)])
        (.start (peer.otherTasks n)) with
      | (.error err, p) => (.error err, p)
      | (.ok none, p) => (.ok none, p)
      | (.ok (some changes), p) =>
        exec (finishReconcile peer changes >>= fun _ ↦ pure (some changes)) p := by
  rw [reconcileWithAdvertisedRoot, exec_bind_ok (exec_lock peer _)]
  dsimp only
  rw [if_neg (show ((Pull.start n).locked peer).node.folder.tree.rootHash ≠ root.stateRoot from hne),
    exec_bind, RemoteRoot.hints, show (Pull.start n).locked peer = .start (peer.otherTasks n) from rfl]
  generalize exec (reconcileLoop peer _ fuel [] [([], root.stateRoot)])
    (.start (peer.otherTasks n)) = r
  obtain ⟨err | _ | changes, p⟩ := r <;> rfl

/-- A pull that has ended does not go on with more fuel. -/
theorem exec_reconcileWithAdvertisedRoot_add {fuel : Nat}
    (h : (exec (reconcileWithAdvertisedRoot peer fuel root) (.start n)).1 ≠ .ok none) (k : Nat) :
    exec (reconcileWithAdvertisedRoot peer (fuel + k) root) (.start n) =
      exec (reconcileWithAdvertisedRoot peer fuel root) (.start n) := by
  by_cases hne : (peer.otherTasks n).folder.tree.rootHash = root.stateRoot
  · rw [exec_reconcileWithAdvertisedRoot_of_eq hne, exec_reconcileWithAdvertisedRoot_of_eq hne]
  · have hloop : (exec (reconcileLoop peer root.hints fuel [] [([], root.stateRoot)])
        (.start (peer.otherTasks n))).1 ≠ .ok none := by
      intro hnone
      refine h ?_
      rw [exec_reconcileWithAdvertisedRoot_of_ne hne]
      generalize exec (reconcileLoop peer root.hints fuel [] _) (Pull.start _) = r at hnone
      obtain ⟨_, p⟩ := r
      cases hnone
      rfl
    rw [exec_reconcileWithAdvertisedRoot_of_ne hne, exec_reconcileWithAdvertisedRoot_of_ne hne,
      exec_reconcileLoop_add hloop]

/-- The end of a pull leaves what was taken. -/
theorem loopWithin_hashed (history : Set FolderState)
    (hne : (peer.otherTasks n).folder.tree.rootHash ≠ root.stateRoot) :
    LoopWithin peer root.hints (peer.hashedNodes history root n) (peer.hashedEntries history root n)
      [] [([], root.stateRoot)] (.start (peer.otherTasks n)) := by
  intro fuel
  have hnodes : (peer.pulled root n fuel).nodes ⊆ peer.hashedNodes history root n :=
    fun _ hnode ↦ .inr (Set.mem_iUnion.mpr ⟨fuel, .inl hnode⟩)
  have hwithin := within_hashed_locked peer history root n fuel
  have hexec := exec_reconcileWithAdvertisedRoot_of_ne hne fuel
  generalize peer.hashedNodes history root n = S at hnodes hwithin ⊢
  generalize peer.hashedEntries history root n = E at hwithin ⊢
  rw [Peer.pulled, hexec] at hnodes hwithin
  generalize exec (reconcileLoop peer root.hints fuel [] [([], root.stateRoot)])
    (.start (peer.otherTasks n)) = r at *
  obtain ⟨err | _ | changes, p⟩ := r
  · exact ⟨hnodes, fun h ↦ by cases h⟩
  · exact ⟨hnodes, fun _ ↦ hwithin⟩
  · have hends : Keeps (Hands fun _ ↦ False) (finishReconcile peer changes >>= fun _ ↦
        (pure (some changes) : PullM W (Option (List Change)))) :=
      (hands_finishReconcile changes).bind fun _ ↦ keeps_pure _
    rw [Pull.nodes, (hends p).1] at hnodes
    exact ⟨hnodes, fun h ↦ by cases h⟩

end Whole

/-! ## A peer with one directory -/

section Serving

/-- A peer that has this folder and sends no files. -/
def serving (remote : FolderState) : Peer Posix.Disk where
  getNode pfx := pure (remote.node pfx)
  getEntries pfx := pure (entriesAt remote pfx)
  fetchObjectOnce _ _ := throw (.ofKind .other)
  joinOrder _ := pure (Equiv.refl _)
  otherTasks := id

theorem serves_serving {remote : FolderState} (h : remote.UpToDate) :
    (serving remote).Serves {remote} where
  upToDate := fun _ hmem ↦ hmem ▸ h
  getNode h := ⟨remote, rfl, (Except.ok.inj (Prod.mk.inj h).1).symm⟩
  getEntries h := ⟨remote, rfl, (Except.ok.inj (Prod.mk.inj h).1).symm⟩
  fetchObjectOnce _ _ _ h := by cases h
  otherTasks _ := .of_folder_eq rfl

/-- The folder of a peer with this index. -/
def remoteFolder : FolderState := { fresh.folder with entries := remoteIndex }.deriveTrees

/-- A node that has scanned an empty folder. -/
def scanned : Node Posix.Disk := { fresh with folder := fresh.folder.deriveTrees }

/-- What the peer advertises. -/
def servedRoot : RemoteRoot := ⟨remoteFolder.tree.rootHash, none⟩

/-- The pull from the peer. -/
def served (fuel : Nat) : Pull Posix.Disk := (serving remoteFolder).pulled servedRoot scanned fuel

/-- The nodes of the peer and those of the pull while it lasts. -/
def servedNodes : List TreeNode :=
  (remoteFolder.tree :: (List.range 3).map fun fuel ↦ (served fuel).node.folder.tree).flatMap
      (fun T ↦ T.nodes.toList.map Prod.snd) ++
    (List.range 3).flatMap fun fuel ↦ (served fuel).taken.map TakenNode.node

/-- The entries of the peer and those of the pull while it lasts. -/
def servedEntries : List Entry :=
  (remoteFolder.entries :: (List.range 3).map fun fuel ↦ (served fuel).node.folder.entries).flatMap
    OrdMap.values

theorem exec_served {fuel : Nat} {r : Except SyncError (Option (List Change))}
    (h : (exec (reconcileWithAdvertisedRoot (serving remoteFolder) fuel servedRoot)
      (.start scanned)).1 = r) :
    exec (reconcileWithAdvertisedRoot (serving remoteFolder) fuel servedRoot) (.start scanned) =
      (r, served fuel) := by
  rw [← h]
  rfl

/-- All that the pull from the peer comes by is in the lists. -/
theorem withoutCollision_served {changes : List Change}
    (hends : (exec (reconcileWithAdvertisedRoot (serving remoteFolder) 2 servedRoot)
      (.start scanned)).1 = .ok (some changes))
    (hnodes : ∀ node ∈ servedNodes, node.Fits) (hentries : ∀ e ∈ servedEntries, e.Fits)
    (hinj : ∀ bytes ∈ servedNodes.map TreeNode.bytes ++ servedEntries.map entryBytes,
      ∀ bytes' ∈ servedNodes.map TreeNode.bytes ++ servedEntries.map entryBytes,
        Blake3.digest bytes = Blake3.digest bytes' → bytes = bytes') :
    WithoutCollision ((serving remoteFolder).hashedNodes {remoteFolder} servedRoot scanned)
      ((serving remoteFolder).hashedEntries {remoteFolder} servedRoot scanned) := by
  have hserved (fuel : Nat) : ∃ i ∈ List.range 3, served fuel = served i := by
    rcases Nat.lt_or_ge fuel 3 with hlt | hge
    · exact ⟨fuel, List.mem_range.mpr hlt, rfl⟩
    · obtain ⟨k, rfl⟩ := Nat.exists_eq_add_of_le (Nat.le_of_succ_le hge)
      refine ⟨2, by decide, congrArg Prod.snd ?_⟩
      refine exec_reconcileWithAdvertisedRoot_add (fun h ↦ ?_) k
      cases h.symm.trans hends
  refine withoutCollision_of_mem servedNodes servedEntries ?_ ?_ hnodes hentries hinj
  · rintro node (hnode | hnode)
    · obtain ⟨-, rfl, hnode⟩ := Set.mem_iUnion₂.mp hnode
      exact List.mem_append_left _ (List.mem_flatMap.mpr
        ⟨_, List.mem_cons_self, mem_of_mem_nodeSet hnode⟩)
    · obtain ⟨fuel, hnode⟩ := Set.mem_iUnion.mp hnode
      obtain ⟨i, hi, heq⟩ := hserved fuel
      change node ∈ (served fuel).nodes ∪ ((served fuel).node.folder.tree.nodeSet ∪
        (served fuel).node.folder.tree.nodeSet) at hnode
      rw [heq, Set.union_self] at hnode
      rcases hnode with ⟨t, ht, rfl⟩ | hnode
      · exact List.mem_append_right _ (List.mem_flatMap.mpr ⟨i, hi, List.mem_map_of_mem ht⟩)
      · exact List.mem_append_left _ (List.mem_flatMap.mpr
          ⟨_, List.mem_cons_of_mem _ (List.mem_map_of_mem hi), mem_of_mem_nodeSet hnode⟩)
  · have hvalues {entries : Index} {e : Entry} (h : ∃ k : Str, entries[k]? = some e) :
        e ∈ OrdMap.values entries := OrdMap.mem_values_iff.mpr h
    rintro e (he | he)
    · obtain ⟨-, rfl, he⟩ := Set.mem_iUnion₂.mp he
      exact List.mem_flatMap.mpr ⟨_, List.mem_cons_self, hvalues he⟩
    · obtain ⟨fuel, he⟩ := Set.mem_iUnion.mp he
      obtain ⟨i, hi, heq⟩ := hserved fuel
      change e ∈ (served fuel).node.folder.entrySet ∪ (served fuel).node.folder.entrySet at he
      rw [heq, Set.union_self] at he
      exact List.mem_flatMap.mpr ⟨_, List.mem_cons_of_mem _ (List.mem_map_of_mem hi), hvalues he⟩

theorem inOrder_scanned : scanned.InOrder where
  upToDate := by
    have hkeyed : Keyed fresh.folder.entries := by
      refine ⟨?_, ?_⟩ <;> simp [fresh, Node.blank]
    exact FolderState.upToDate_deriveTrees hkeyed
  regular := by
    refine ⟨fun k e he ↦ ?_, fun k e he ↦ ?_⟩ <;>
      simp [scanned, FolderState.deriveTrees, fresh, Node.blank] at he

end Serving

end Lilsync
