import Lilsync.Disk
import Lilsync.Sync.Chain

/-!
# What the advertised root vouches for

An entry that the walk hands over is listed, with its hash, in a node that was
taken for the peer's, and that node by its parent, up to the advertised root.  If
each of these nodes has the hash it is listed with, the root commits to the entry,
and the walk ends.  The nodes of a hint are hashed again and have it.  Those that
`get_node` returns are only asked what their hash is.
-/

namespace Lilsync

open Std (ExtTreeMap)
open Lilsync.Lib Lilsync.Lib.Proc

variable [Blake3]

/-! ## What the walk logs -/

section Log

variable {W : Type} {p p' : Pull W}

/-- A node was taken for the one with the hash. -/
def Pull.Took (p : Pull W) (node : TreeNode) (hash : Hash) : Prop :=
  ∃ t ∈ p.taken, t.node = node ∧ t.expected = hash

/-- Nothing was taken, and entries were handed over that all satisfy `P`. -/
def Hands (P : Entry → Prop) (p p' : Pull W) : Prop :=
  p'.taken = p.taken ∧ ∃ es, p'.handed = p.handed ++ es ∧ ∀ e ∈ es, P e

instance (P : Entry → Prop) : IsPreorder (Pull W) (Hands P) where
  refl _ := ⟨rfl, [], (List.append_nil _).symm, fun _ he ↦ absurd he List.not_mem_nil⟩
  trans p q r := by
    rintro ⟨htaken, es, hes, hP⟩ ⟨htaken', es', hes', hP'⟩
    refine ⟨htaken'.trans htaken, es ++ es', ?_, fun e he ↦ ?_⟩
    · rw [hes', hes, List.append_assoc]
    · exact (List.mem_append.mp he).elim (hP e) (hP' e)

variable {P : Entry → Prop} {α : Type} (peer : Peer W)

omit [Blake3] in
theorem Hands.mono {P' : Entry → Prop} (h : Hands P p p') (hP : ∀ e, P e → P' e) :
    Hands P' p p' := by
  obtain ⟨htaken, es, hes, hall⟩ := h
  exact ⟨htaken, es, hes, fun e he ↦ hP e (hall e he)⟩

omit [Blake3] in
theorem Hands.take (h : Hands P p p') (t : TakenNode) :
    Hands P { p with taken := t :: p.taken } { p' with taken := t :: p'.taken } := by
  obtain ⟨htaken, hes⟩ := h
  exact ⟨congrArg (t :: ·) htaken, hes⟩

omit [Blake3] in
theorem hands_of_eq (htaken : p'.taken = p.taken) (hhanded : p'.handed = p.handed) :
    Hands P p p' :=
  ⟨htaken, [], by rw [hhanded, List.append_nil], fun _ he ↦ absurd he List.not_mem_nil⟩

omit [Blake3] in
theorem hands_onNode (m : NodeM W α) : Keeps (Hands P) (PullM.onNode m) :=
  fun _ ↦ hands_of_eq rfl rfl

omit [Blake3] in
theorem hands_ask (m : Fs W α) : Keeps (Hands P) (PullM.ask m) := hands_onNode _

omit [Blake3] in
theorem hands_lock : Keeps (Hands P) (PullM.lock peer) := fun _ ↦ hands_of_eq rfl rfl

/-! ## The entries of a node -/

/-- The node lists the entry under its name. -/
def ListsEntry (pfx : Str) (node : TreeNode) (e : Entry) : Prop :=
  ∃ name, node.entries[name]? = some (hashEntry e) ∧ e.path = joinPath pfx name

variable {peer} {pfx : Str} {localNode : Option TreeNode} {remoteNode : TreeNode}

theorem yields_selectEntry {sent : List Entry} {toApply : List Entry} {nameHash : Str × Hash}
    (hmem : nameHash ∈ remoteNode.entries.toList) (h : ∀ e ∈ toApply, ListsEntry pfx remoteNode e) :
    Yields (fun toApply ↦ ∀ e ∈ toApply, ListsEntry pfx remoteNode e)
      (selectEntry peer pfx localNode (indexOf sent) toApply nameHash) := by
  obtain ⟨name, remoteHash⟩ := nameHash
  rw [selectEntry]
  dsimp only
  split
  · exact yields_pure h
  · split
    · exact yields_throw _
    · next remoteEntry hsent =>
      split
      · exact yields_throw _
      · next hhash =>
        refine yields_bind fun folder ↦ ?_
        split
        · refine yields_pure fun e he ↦ ?_
          rcases List.mem_append.mp he with he | he
          · exact h e he
          · obtain rfl := List.mem_singleton.mp he
            refine ⟨name, ?_, ?_⟩
            · rw [not_not.mp hhash]
              exact ExtTreeMap.mem_toList_iff_getElem?_eq_some.mp hmem
            · obtain ⟨e', -, heq⟩ := List.mem_map.mp (OrdMap.mem_of_getElem?_ofList hsent)
              obtain ⟨hpath, rfl⟩ := Prod.mk.inj heq
              exact hpath
        · exact yields_pure h

theorem hands_selectEntry {allRemote : Index} {toApply : List Entry} {nameHash : Str × Hash} :
    Keeps (Hands P) (selectEntry peer pfx localNode allRemote toApply nameHash) := by
  rw [selectEntry]
  dsimp only
  split
  · exact keeps_pure _
  · split
    · exact keeps_throw _
    · split
      · exact keeps_throw _
      · refine (hands_lock peer).bind fun folder ↦ ?_
        split
        · exact keeps_pure _
        · exact keeps_pure _

/-- The files and the rest, each with an entry that satisfies `P`. -/
def EachSatisfies (P : Entry → Prop)
    (st : List (Hash × Entry) × List (Entry × Option PathBuf)) : Prop :=
  (∀ file ∈ st.1, P file.2) ∧ ∀ item ∈ st.2, P item.1

omit [Blake3] in
theorem yields_sortEntry {st : List (Hash × Entry) × List (Entry × Option PathBuf)} {e : Entry}
    (hst : EachSatisfies P st) (he : P e) : Yields (EachSatisfies P) (sortEntry st e : PullM W _) := by
  rw [sortEntry]
  split
  · split
    · exact yields_throw _
    · refine yields_pure ⟨fun file hfile ↦ ?_, hst.2⟩
      rcases List.mem_append.mp hfile with hfile | hfile
      · exact hst.1 file hfile
      · rwa [List.mem_singleton.mp hfile]
  · refine yields_pure ⟨hst.1, fun item hitem ↦ ?_⟩
    rcases List.mem_append.mp hitem with hitem | hitem
    · exact hst.2 item hitem
    · rwa [List.mem_singleton.mp hitem]

omit [Blake3] in
theorem hands_sortEntry {st : List (Hash × Entry) × List (Entry × Option PathBuf)} {e : Entry} :
    Keeps (Hands P) (sortEntry st e : PullM W _) := by
  rw [sortEntry]
  split
  · split
    · exact keeps_throw _
    · exact keeps_pure _
  · exact keeps_pure _

omit [Blake3] in
theorem yields_joinNext {fileBatch : List (Entry × Option PathBuf)} {file : Hash × Entry}
    (hbatch : ∀ item ∈ fileBatch, P item.1) (hfile : P file.2) :
    Yields (fun fileBatch ↦ ∀ item ∈ fileBatch, P item.1) (joinNext peer fileBatch file) := by
  rw [joinNext]
  refine yields_bind fun tmp ↦ ?_
  cases tmp with
  | none => exact yields_pure hbatch
  | some tmpPath =>
    refine yields_pure fun item hitem ↦ ?_
    rcases List.mem_append.mp hitem with hitem | hitem
    · exact hbatch item hitem
    · rwa [List.mem_singleton.mp hitem]

omit [Blake3] in
theorem hands_joinNext {fileBatch : List (Entry × Option PathBuf)} {file : Hash × Entry} :
    Keeps (Hands P) (joinNext peer fileBatch file) := by
  rw [joinNext]
  refine (hands_ask _).bind fun tmp ↦ ?_
  cases tmp with
  | none => exact keeps_pure _
  | some tmpPath => exact keeps_pure _

variable [FileSystem W]

/-- Applying a batch hands over its entries. -/
theorem hands_applyHanded {batch : List (Entry × Option PathBuf)}
    (h : ∀ item ∈ batch, P item.1) : Keeps (Hands P) (applyHanded peer batch) := by
  rw [applyHanded]
  split
  · exact keeps_pure _
  · refine (hands_lock peer).bind fun _ ↦ ?_
    refine (keeps_modify fun p ↦ ⟨rfl, batch.map Prod.fst, rfl, fun e he ↦ ?_⟩).bind fun _ ↦
      hands_onNode _
    obtain ⟨item, hitem, rfl⟩ := List.mem_map.mp he
    exact h item hitem

/-- What is handed over for a node is listed in it. -/
theorem hands_reconcileEntries : Keeps (Hands (ListsEntry pfx remoteNode))
    (reconcileEntries peer pfx localNode remoteNode) := by
  rw [reconcileEntries]
  refine (hands_ask _).bind fun sent ↦ ?_
  refine (Keeps.foldlM (fun _ _ ↦ hands_selectEntry) _ _).bind_yields
    (Yields.foldlM (fun toApply h nameHash hmem ↦ yields_selectEntry hmem h)
      fun e he ↦ absurd he List.not_mem_nil) fun toApply htoApply ↦ ?_
  refine (Keeps.foldlM (fun _ _ ↦ hands_sortEntry) _ _).bind_yields
    (Yields.foldlM (fun st hst e he ↦ yields_sortEntry hst (htoApply e he))
      ⟨fun _ h ↦ absurd h List.not_mem_nil, fun _ h ↦ absurd h List.not_mem_nil⟩)
    fun sorted hsorted ↦ ?_
  obtain ⟨files, nonFileBatch⟩ := sorted
  refine (hands_applyHanded hsorted.2).bind fun changes ↦ ?_
  refine (hands_ask _).bind fun order ↦ ?_
  have hjoin : Yields (fun fileBatch ↦ ∀ item ∈ fileBatch, ListsEntry pfx remoteNode item.1)
      ((List.ofFn fun i ↦ files.get (order i)).foldlM (joinNext peer) []) := by
    refine Yields.foldlM (fun fileBatch hbatch file hfile ↦ yields_joinNext hbatch ?_)
      fun _ h ↦ absurd h List.not_mem_nil
    obtain ⟨i, rfl⟩ := List.mem_ofFn.mp hfile
    exact hsorted.1 _ (List.get_mem _ _)
  refine (Keeps.foldlM (fun _ _ ↦ hands_joinNext) _ _).bind_yields hjoin fun fileBatch hfiles ↦ ?_
  exact (hands_applyHanded hfiles).bind fun _ ↦ keeps_pure _

/-! ## The walk -/

omit [FileSystem W] [Blake3] in
/-- What is pushed are the children that the local node does not list with the same hash. -/
theorem queueChangedChildren_eq (pfx : Str) (localNode : Option TreeNode) (remoteNode : TreeNode)
    (stack : List (Str × Hash)) :
    ∃ queued, queueChangedChildren pfx localNode remoteNode stack = queued ++ stack ∧
      ∀ item, item ∈ queued ↔ ∃ name hash, item = (joinPath pfx name, hash) ∧
        remoteNode.children[name]? = some hash ∧
        (localNode.bind fun node ↦ node.children[name]?) ≠ some hash := by
  let differs (nameHash : Str × Hash) : Bool :=
    (localNode.bind fun node ↦ node.children[nameHash.1]?) ≠ some nameHash.2
  refine ⟨((remoteNode.children.toList.filter differs).map
    fun nameHash ↦ (joinPath pfx nameHash.1, nameHash.2)).reverse, ?_, fun item ↦ ?_⟩
  · rw [queueChangedChildren, ← List.foldl_flip_cons_eq_append, List.foldl_filter]
    refine List.foldl_ext _ _ _ fun stack nameHash _ ↦ ?_
    by_cases hsame : (localNode.bind fun node ↦ node.children[nameHash.1]?) = some nameHash.2
    · rw [if_neg fun hdiffers : differs nameHash ↦ of_decide_eq_true hdiffers hsame]
      exact if_pos hsame
    · rw [if_pos (decide_eq_true hsame : differs nameHash)]
      exact if_neg hsame
  · rw [List.mem_reverse, List.mem_map]
    constructor
    · rintro ⟨⟨name, hash⟩, hmem, rfl⟩
      obtain ⟨hmem, hdiffers⟩ := List.mem_filter.mp hmem
      exact ⟨name, hash, rfl, ExtTreeMap.mem_toList_iff_getElem?_eq_some.mp hmem,
        of_decide_eq_true hdiffers⟩
    · rintro ⟨name, hash, rfl, hchild, hdiffers⟩
      exact ⟨(name, hash), List.mem_filter.mpr
        ⟨ExtTreeMap.mem_toList_iff_getElem?_eq_some.mpr hchild, decide_eq_true hdiffers⟩, rfl⟩

/-- Every hint has the hash it says it has. -/
def HintedNodes.Checked (hinted : HintedNodes) : Prop :=
  ∀ (k : Str) (node : TreeNode), hinted[k]? = some node → treeNodeHash node = node.hash

omit [FileSystem W] in
theorem HintedNodes.checked_ofHint (hint : TreeHint) : (HintedNodes.ofHint hint).Checked := by
  intro k node hnode
  obtain ⟨node', hmem, heq⟩ := List.mem_map.mp (OrdMap.mem_of_getElem?_ofList hnode)
  obtain ⟨-, rfl⟩ := Prod.mk.inj heq
  exact of_decide_eq_true (List.mem_filter.mp hmem).2

variable {hinted : HintedNodes} {expected : Hash} {stack : List (Str × Hash)}

/-- The peer may answer with the node. -/
def Peer.Answers (peer : Peer W) (pfx : Str) (node : TreeNode) : Prop :=
  ∃ w w', exec (peer.getNode pfx) w = (.ok (some node), w')

/-- A hint that has its hash, or an answer of the peer. -/
def TakenNode.IsFrom (t : TakenNode) (peer : Peer W) : Prop :=
  if t.hinted then treeNodeHash t.node = t.node.hash else peer.Answers t.pfx t.node

omit [FileSystem W] in
theorem yields_remoteNodeFor (h : hinted.Checked) :
    Yields (fun r ↦ TakenNode.IsFrom ⟨pfx, expected, r.1, r.2⟩ peer)
      (remoteNodeFor peer hinted pfx expected) := by
  rw [remoteNodeFor]
  split
  · next node hnode => exact yields_pure (h _ node (Option.filter_eq_some_iff.mp hnode).1)
  · have hask : Yields (fun answer ↦ ∀ node ∈ answer, peer.Answers pfx node)
        (PullM.ask (peer.getNode pfx)) := by
      intro p answer hanswer node hnode
      have hfs : (exec (peer.getNode pfx) p.node.world).1.mapError SyncError.io = .ok answer :=
        hanswer
      match hget : exec (peer.getNode pfx) p.node.world with
      | (.error err, w) =>
        rw [hget] at hfs
        cases hfs
      | (.ok answer', w) =>
        rw [hget] at hfs
        obtain rfl := Except.ok.inj hfs
        obtain rfl : answer' = some node := hnode
        exact ⟨_, w, hget⟩
    refine hask.bind fun answer hanswer ↦ ?_
    cases answer with
    | none => exact yields_throw _
    | some node => exact yields_pure (hanswer node rfl)

omit [FileSystem W] [Blake3] in
theorem hands_remoteNodeFor :
    Keeps (Hands P) (remoteNodeFor peer hinted pfx expected) := by
  rw [remoteNodeFor]
  split
  · exact keeps_pure _
  · refine (hands_ask _).bind fun answer ↦ ?_
    cases answer with
    | none => exact keeps_throw _
    | some node => exact keeps_pure _

/-- A turn of the walk hands nothing over and queues nothing, or it takes a node, hands
over entries listed in it and queues children of it. -/
theorem reconcileNode_cases (h : hinted.Checked) {p : Pull W}
    {r : Except SyncError (List Change × List (Str × Hash)) × Pull W}
    (hr : exec (reconcileNode peer hinted pfx expected stack) p = r) :
    (Hands (fun _ ↦ False) p r.2 ∧ ∀ changes rest, r.1 = .ok (changes, rest) → rest = stack) ∨
    ∃ (t : TakenNode) (localNode : Option TreeNode), t.pfx = pfx ∧ t.expected = expected ∧
      t.node.hash = expected ∧ t.IsFrom peer ∧
      Hands (ListsEntry pfx t.node) { p with taken := t :: p.taken } r.2 ∧
      ∀ changes rest, r.1 = .ok (changes, rest) →
        rest = queueChangedChildren pfx localNode t.node stack := by
  rw [reconcileNode, exec_bind_ok (show exec (PullM.lock peer) p = (.ok _, _) from rfl)] at hr
  generalize hq : (Pull.mk _ _ _ : Pull W) = q at hr
  have hlock : Hands (fun _ ↦ False) p q := hq ▸ hands_of_eq rfl rfl
  generalize (peer.otherTasks p.node).folder.node pfx = localNode at hr
  dsimp only at hr
  split at hr
  · subst hr
    refine .inl ⟨hlock, fun changes rest hok ↦ ?_⟩
    cases hok
    rfl
  have hhands : Hands (fun _ ↦ False) q (exec (remoteNodeFor peer hinted pfx expected) q).2 :=
    hands_remoteNodeFor q
  have hyields : ∀ t, (exec (remoteNodeFor peer hinted pfx expected) q).1 = .ok t →
      TakenNode.IsFrom ⟨pfx, expected, t.1, t.2⟩ peer := yields_remoteNodeFor h q
  rw [exec_bind] at hr
  match hfor : exec (remoteNodeFor peer hinted pfx expected) q with
  | (.error err, q') =>
    rw [hfor] at hr hhands
    subst hr
    refine .inl ⟨trans_of _ hlock hhands, fun changes rest hok ↦ ?_⟩
    cases hok
  | (.ok (remoteNode, isHinted), q') =>
    rw [hfor] at hr hhands hyields
    dsimp only at hr
    have hq' := trans_of _ hlock hhands
    split at hr
    · subst hr
      refine .inl ⟨hq', fun changes rest hok ↦ ?_⟩
      cases hok
    · next hhash =>
      rw [exec_modify_bind] at hr
      have htake := hq'.take ⟨pfx, expected, remoteNode, isHinted⟩
      generalize hq'' : (Pull.mk _ _ _ : Pull W) = q'' at hr
      rw [hq''] at htake
      have hentries : Hands (ListsEntry pfx remoteNode) q''
          (exec (reconcileEntries peer pfx localNode remoteNode) q'').2 :=
        hands_reconcileEntries q''
      have hhanded := trans_of _ (htake.mono fun _ he ↦ he.elim) hentries
      refine .inr ⟨⟨pfx, expected, remoteNode, isHinted⟩, localNode, rfl, rfl,
        not_not.mp hhash, hyields _ rfl, ?_⟩
      rw [exec_bind] at hr
      match hrun : exec (reconcileEntries peer pfx localNode remoteNode) q'' with
      | (.error err, q₃) =>
        rw [hrun] at hr hhanded
        subst hr
        exact ⟨hhanded, fun changes rest hok ↦ by cases hok⟩
      | (.ok changes, q₃) =>
        rw [hrun] at hr hhanded
        subst hr
        refine ⟨hhanded, fun changes rest hok ↦ ?_⟩
        cases hok
        rfl

/-! ## Every run -/

/-- All that is logged comes down from the root. -/
structure Pull.Sourced (p : Pull W) (peer : Peer W) (root : Hash) : Prop where
  hash_eq : ∀ t ∈ p.taken, t.node.hash = t.expected
  isFrom : ∀ t ∈ p.taken, t.IsFrom peer
  handed : ∀ e ∈ p.handed, ∃ names, ListedIn p.Took root names e

/-- What is on the stack is listed by nodes that were taken. -/
def Pull.Queued (p : Pull W) (root : Hash) (stack : List (Str × Hash)) : Prop :=
  ∀ item ∈ stack, ∃ names, pathOf names = item.1 ∧ Chain p.Took root names item.2

variable {root : Hash}

omit [FileSystem W] [Blake3] in
theorem took_of_hands (h : Hands P p p') : p'.Took = p.Took := by
  funext node hash
  rw [Pull.Took, Pull.Took, h.1]

omit [FileSystem W] in
theorem Pull.Sourced.hands (h : p.Sourced peer root)
    (hhands : Hands (fun e ↦ ∃ names, ListedIn p.Took root names e) p p') : p'.Sourced peer root := by
  have htook := took_of_hands hhands
  obtain ⟨htaken, es, hes, hall⟩ := hhands
  refine ⟨?_, ?_, fun e he ↦ ?_⟩
  · rw [htaken]
    exact h.hash_eq
  · rw [htaken]
    exact h.isFrom
  · rw [htook]
    rw [hes] at he
    exact (List.mem_append.mp he).elim (h.handed e) (hall e)

omit [FileSystem W] [Blake3] in
theorem Pull.Queued.hands (h : p.Queued root stack) (hhands : Hands P p p') :
    p'.Queued root stack := by
  rw [Pull.Queued, took_of_hands hhands]
  exact h

omit [FileSystem W] [Blake3] in
theorem took_cons {t : TakenNode} (node : TreeNode) (hash : Hash) (h : p.Took node hash) :
    Pull.Took { p with taken := t :: p.taken } node hash := by
  obtain ⟨u, hu, hrest⟩ := h
  exact ⟨u, List.mem_cons_of_mem _ hu, hrest⟩

omit [FileSystem W] in
/-- Taking a node that has the hash asked for. -/
theorem Pull.Sourced.take (h : p.Sourced peer root) {t : TakenNode} (hhash : t.node.hash = t.expected)
    (hfrom : t.IsFrom peer) : Pull.Sourced { p with taken := t :: p.taken } peer root where
  hash_eq := List.forall_mem_cons.mpr ⟨hhash, h.hash_eq⟩
  isFrom := List.forall_mem_cons.mpr ⟨hfrom, h.isFrom⟩
  handed e he := by
    obtain ⟨names, hlisted⟩ := h.handed e he
    exact ⟨names, hlisted.mono took_cons⟩

/-- One turn of the walk. -/
theorem sourced_reconcileNode (hchecked : hinted.Checked) (h : p.Sourced peer root)
    (hstack : p.Queued root ((pfx, expected) :: stack))
    {r : Except SyncError (List Change × List (Str × Hash)) × Pull W}
    (hr : exec (reconcileNode peer hinted pfx expected stack) p = r) :
    r.2.Sourced peer root ∧ ∀ changes rest, r.1 = .ok (changes, rest) → r.2.Queued root rest := by
  rw [Pull.Queued, List.forall_mem_cons] at hstack
  obtain ⟨⟨names, hpath, hchain⟩, hstack⟩ := hstack
  rcases reconcileNode_cases hchecked hr with
    ⟨hhands, hrest⟩ | ⟨t, localNode, rfl, rfl, hhash, hfrom, hhands, hrest⟩
  · refine ⟨h.hands (hhands.mono fun _ he ↦ he.elim), fun changes rest hok ↦ ?_⟩
    rw [hrest changes rest hok]
    exact Pull.Queued.hands hstack hhands
  · have htook : Pull.Took { p with taken := t :: p.taken } t.node t.expected :=
      ⟨t, List.mem_cons_self, rfl, rfl⟩
    have hchain' := hchain.mono (took_cons (t := t))
    constructor
    · refine (h.take hhash hfrom).hands (hhands.mono fun e he ↦ ?_)
      obtain ⟨name, hentry, hname⟩ := he
      exact ⟨name :: names, name, names, t.expected, t.node, rfl, hchain', htook, hentry,
        by rw [pathOf, hpath, hname]⟩
    · intro changes rest hok item hitem
      rw [took_of_hands hhands]
      obtain ⟨queued, heq, hqueued⟩ :=
        queueChangedChildren_eq t.pfx localNode t.node stack
      rw [hrest changes rest hok, heq] at hitem
      rcases List.mem_append.mp hitem with hitem | hitem
      · obtain ⟨name, hash, rfl, hchild, -⟩ := (hqueued item).mp hitem
        exact ⟨name :: names, by rw [pathOf, hpath], .child hchain' htook hchild⟩
      · obtain ⟨names', hpath', hchain''⟩ := hstack item hitem
        exact ⟨names', hpath', hchain''.mono took_cons⟩

theorem sourced_reconcileLoop (hchecked : hinted.Checked) (fuel : Nat) (changes : List Change)
    (h : p.Sourced peer root) (hstack : p.Queued root stack) :
    (exec (reconcileLoop peer hinted fuel changes stack) p).2.Sourced peer root := by
  induction fuel generalizing p changes stack with
  | zero => cases stack <;> exact h
  | succ fuel ih =>
    cases stack with
    | nil => exact h
    | cons item stack =>
      obtain ⟨pfx, expected⟩ := item
      rw [reconcileLoop, exec_bind]
      match hr : exec (reconcileNode peer hinted pfx expected stack) p with
      | (.error err, p') => exact (sourced_reconcileNode hchecked h hstack hr).1
      | (.ok (nodeChanges, rest), p') =>
        obtain ⟨hsourced, hqueued⟩ := sourced_reconcileNode hchecked h hstack hr
        exact ih _ hsourced (hqueued nodeChanges rest rfl)

theorem hands_finishReconcile (changes : List Change) :
    Keeps (Hands P) (finishReconcile peer changes) := by
  rw [finishReconcile]
  refine (hands_lock peer).bind fun folder ↦ ?_
  dsimp only
  have hsave : Keeps (Hands P) (if changes ≠ [] then do
      let _ ← PullM.lock peer
      PullM.onNode saveEntries
    else pure ()) := by
    split
    · exact (hands_lock peer).bind fun _ ↦ hands_onNode _
    · exact keeps_pure _
  split
  · exact (hands_lock peer).bind fun _ ↦ (hands_onNode _).bind fun _ ↦ hsave
  · exact hsave

/-- A node that has not begun to pull. -/
def Pull.start (n : Node W) : Pull W := ⟨n, [], []⟩

/-- What has been logged when the pull has ended, or when the fuel has run out. -/
def Peer.pulled (peer : Peer W) (remote : RemoteRoot) (n : Node W) (fuel : Nat) : Pull W :=
  (exec (reconcileWithAdvertisedRoot peer fuel remote) (.start n)).2

/-- A pull does nothing, or it is the loop from the root with what comes after it. -/
theorem pulled_cases (peer : Peer W) (remote : RemoteRoot) (n : Node W) :
    (∀ fuel, exec (reconcileWithAdvertisedRoot peer fuel remote) (.start n) =
      (.ok (some []), .start (peer.otherTasks n))) ∨
    ∃ hinted : HintedNodes, hinted.Checked ∧ ∀ fuel,
      let r := exec (reconcileLoop peer hinted fuel [] [([], remote.stateRoot)])
        (.start (peer.otherTasks n))
      Hands (fun _ ↦ False) r.2 (peer.pulled remote n fuel) ∧
        (r.1 ≠ .ok none →
          (exec (reconcileWithAdvertisedRoot peer fuel remote) (.start n)).1 ≠ .ok none) := by
  have hlock : exec (PullM.lock peer) (.start n) =
      (.ok (peer.otherTasks n).folder, .start (peer.otherTasks n)) := rfl
  by_cases hroot : (peer.otherTasks n).folder.tree.rootHash = remote.stateRoot
  · refine .inl fun fuel ↦ ?_
    rw [reconcileWithAdvertisedRoot, exec_bind_ok hlock]
    dsimp only
    rw [if_pos hroot]
    rfl
  · refine .inr ⟨(remote.hint.map HintedNodes.ofHint).getD ∅, ?_, fun fuel ↦ ?_⟩
    · cases remote.hint with
      | none => exact fun k node hnode ↦ by simp at hnode
      | some hint => exact HintedNodes.checked_ofHint hint
    · rw [Peer.pulled, reconcileWithAdvertisedRoot, exec_bind_ok hlock]
      dsimp only
      rw [if_neg hroot, exec_bind]
      generalize exec (reconcileLoop peer _ fuel [] [([], remote.stateRoot)])
        (.start (peer.otherTasks n)) = r
      obtain ⟨err | _ | changes, p⟩ := r
      · exact ⟨hands_of_eq rfl rfl, fun _ h ↦ by cases h⟩
      · exact ⟨hands_of_eq rfl rfl, fun h ↦ absurd rfl h⟩
      · refine ⟨(hands_finishReconcile changes).bind (fun _ ↦ keeps_pure _) p, fun _ h ↦ ?_⟩
        dsimp only at h
        rw [exec_bind] at h
        generalize exec (finishReconcile peer changes) p = r at h
        obtain ⟨_ | _, p'⟩ := r <;> cases h

omit [FileSystem W] in
theorem sourced_start (peer : Peer W) (n : Node W) (root : Hash) : (Pull.start n).Sourced peer root :=
  ⟨fun _ h ↦ absurd h List.not_mem_nil, fun _ h ↦ absurd h List.not_mem_nil,
    fun _ h ↦ absurd h List.not_mem_nil⟩

theorem sourced_pulled (peer : Peer W) (remote : RemoteRoot) (n : Node W) (fuel : Nat) :
    (peer.pulled remote n fuel).Sourced peer remote.stateRoot := by
  rcases pulled_cases peer remote n with h | ⟨hinted, hchecked, h⟩
  · rw [Peer.pulled, h fuel]
    exact sourced_start _ _ _
  · obtain ⟨hhands, -⟩ := h fuel
    have hqueued : (Pull.start (peer.otherTasks n)).Queued remote.stateRoot
        [([], remote.stateRoot)] := List.forall_mem_singleton.mpr ⟨[], rfl, .root⟩
    have hloop : (exec (reconcileLoop peer hinted fuel [] [([], remote.stateRoot)])
        (.start (peer.otherTasks n))).2.Sourced peer remote.stateRoot :=
      sourced_reconcileLoop hchecked fuel [] (sourced_start _ _ _) hqueued
    exact hloop.hands (hhands.mono fun _ he ↦ he.elim)

/-- Every node that `get_node` has returned has the hash it says it has. -/
def Pull.Verified (p : Pull W) : Prop :=
  ∀ t ∈ p.taken, t.hinted = false → treeNodeHash t.node = t.node.hash

/-- The nodes that were taken. -/
def Pull.nodes (p : Pull W) : Set TreeNode := {node | ∃ t ∈ p.taken, t.node = node}

omit [FileSystem W] in
theorem Pull.Sourced.recomputed (h : p.Sourced peer root) (hv : p.Verified) {node : TreeNode}
    {hash : Hash} (htook : p.Took node hash) : Recomputed p.nodes node hash := by
  obtain ⟨t, ht, rfl, rfl⟩ := htook
  refine ⟨⟨t, ht, rfl⟩, Eq.trans ?_ (h.hash_eq t ht)⟩
  cases hhinted : t.hinted with
  | false => exact hv t ht hhinted
  | true =>
    have hfrom := h.isFrom t ht
    rwa [TakenNode.IsFrom, hhinted, if_pos rfl] at hfrom

/-- A peer that only answers with nodes that have the hash they say they have. -/
theorem verified_pulled (h : ∀ pfx node, peer.Answers pfx node → treeNodeHash node = node.hash)
    (remote : RemoteRoot) (n : Node W) (fuel : Nat) : (peer.pulled remote n fuel).Verified := by
  intro t ht hhinted
  have hfrom := (sourced_pulled peer remote n fuel).isFrom t ht
  rw [TakenNode.IsFrom, hhinted, if_neg Bool.false_ne_true] at hfrom
  exact h t.pfx t.node hfrom

/-- The root commits to each entry that is handed over. -/
theorem commits_of_verified {remote : RemoteRoot} {n : Node W} {fuel : Nat}
    (hv : (peer.pulled remote n fuel).Verified) {e : Entry}
    (he : e ∈ (peer.pulled remote n fuel).handed) :
    Commits (peer.pulled remote n fuel).nodes remote.stateRoot e := by
  have h := sourced_pulled peer remote n fuel
  obtain ⟨names, hlisted⟩ := h.handed e he
  exact ⟨names, hlisted.mono fun _ _ ↦ h.recomputed hv⟩

/-! ## The end of the walk -/

/-- The nodes that were taken have hashes that are in order, and the strings are among the
given ones. -/
def Pull.TakenFrom (p : Pull W) (strings : Set (List UInt8)) : Prop :=
  ∀ t ∈ p.taken, t.node.bytes ∈ strings ∧ treeNodeHash t.node = t.expected

omit [FileSystem W] [Blake3] in
/-- Taking an item from the stack and pushing others in its place. -/
theorem cutExpand_push {r : α → α → Prop} {queued : List α} {a : α} (h : ∀ b ∈ queued, r b a)
    (stack : List α) : Relation.CutExpand r ↑(queued ++ stack) ↑(a :: stack) := by
  refine ⟨queued, a, fun b hmem ↦ h b (Multiset.mem_coe.mp hmem), ?_⟩
  rw [← Multiset.coe_add, ← Multiset.cons_coe, ← Multiset.singleton_add]
  abel

/-- If no hash is part of what it is the hash of, even through other hashes, the walk over
nodes with these hashes ends. -/
theorem exists_fuel {strings : Set (List UInt8)} (hwf : WellFounded (HashBelow strings))
    (hchecked : hinted.Checked) (stack : List (Str × Hash)) {changes : List Change}
    (htaken : ∀ fuel, (exec (reconcileLoop peer hinted fuel changes stack) p).2.TakenFrom strings) :
    ∃ fuel, (exec (reconcileLoop peer hinted fuel changes stack) p).1 ≠ .ok none := by
  -- the hashes on the stack are the heads of a hydra
  induction hs : (stack.map Prod.snd : Multiset Hash) using hwf.cutExpand.induction
    generalizing stack p changes with
  | _ heads ih =>
    cases stack with
    | nil => exact ⟨0, fun h ↦ by cases h⟩
    | cons item stack =>
      obtain ⟨pfx, expected⟩ := item
      match hr : exec (reconcileNode peer hinted pfx expected stack) p with
      | (.error err, p') =>
        refine ⟨1, fun h ↦ ?_⟩
        rw [reconcileLoop, exec_bind_error hr] at h
        cases h
      | (.ok (nodeChanges, rest), p') =>
        have hstep (fuel : Nat) :
            exec (reconcileLoop peer hinted (fuel + 1) changes ((pfx, expected) :: stack)) p =
              exec (reconcileLoop peer hinted fuel (changes ++ nodeChanges) rest) p' := by
          rw [reconcileLoop, exec_bind_ok hr]
        have hcut : Relation.CutExpand (HashBelow strings) (rest.map Prod.snd : Multiset Hash) heads := by
          subst hs
          rcases reconcileNode_cases hchecked hr with
            ⟨-, hrest⟩ | ⟨t, localNode, rfl, rfl, -, -, hhands, hrest⟩
          · rw [hrest _ _ rfl]
            exact cutExpand_push (fun _ h ↦ absurd h List.not_mem_nil) (stack.map Prod.snd)
          · obtain ⟨queued, heq, hqueued⟩ :=
              queueChangedChildren_eq t.pfx localNode t.node stack
            have htook := htaken 1
            rw [hstep 0] at htook
            have hmem : t ∈ p'.taken := hhands.1 ▸ List.mem_cons_self
            have hstate : (exec (reconcileLoop peer hinted 0 (changes ++ nodeChanges) rest) p').2 =
                p' := by
              cases rest <;> rfl
            rw [hstate] at htook
            obtain ⟨hbytes, hhash⟩ := htook t hmem
            rw [hrest _ _ rfl, heq, List.map_append]
            refine cutExpand_push (fun hash hmem ↦ ?_) (stack.map Prod.snd)
            obtain ⟨item, hitem, rfl⟩ := List.mem_map.mp hmem
            obtain ⟨name, hash, rfl, hchild, -⟩ := (hqueued item).mp hitem
            exact ⟨t.node.bytes, hbytes, hhash, isInfix_bytes hchild⟩
        obtain ⟨fuel, hfuel⟩ := ih _ hcut rest (fun fuel ↦ hstep fuel ▸ htaken (fuel + 1)) rfl
        exact ⟨fuel + 1, hstep fuel ▸ hfuel⟩

/-! ## What a verified pull comes to -/

/-- The nodes taken and the entries handed over in a pull. -/
def Pull.entries (p : Pull W) : Set Entry := {e | e ∈ p.handed}

end Log

/-! ## Three peers -/

section Peers

/-- A peer that answers from what it knows, on a disk where nothing else runs. -/
def answering (getNode : Str → Option TreeNode) (getEntries : Str → List Entry) :
    Peer Posix.Disk where
  getNode pfx := pure (getNode pfx)
  getEntries pfx := pure (getEntries pfx)
  fetchObjectOnce _ _ := pure none
  joinOrder _ := pure (Equiv.refl _)
  otherTasks := id

omit [Blake3] in
theorem eq_of_answers {getNode : Str → Option TreeNode} {getEntries : Str → List Entry} {pfx : Str}
    {node : TreeNode} (h : (answering getNode getEntries).Answers pfx node) :
    getNode pfx = some node := by
  obtain ⟨w, w', h⟩ := h
  exact Except.ok.inj (Prod.mk.inj h).1

/-- A directory without a mode. -/
def dirEntry (path : Str) : Entry := ⟨path, .dir, none, none, 0, none, ⟨1, lit "B"⟩⟩

/-- The index of a peer. -/
def remoteIndex : Index := indexOf [dirEntry (lit "a")]

/-- What the peer with this index advertises. -/
def advertised : RemoteRoot := ⟨(deriveTree remoteIndex).rootHash, none⟩

/-- A peer with this index. -/
def honest : Peer Posix.Disk :=
  answering (fun pfx ↦ (deriveTree remoteIndex).nodes[normalizePrefix pfx]?) fun pfx ↦
    (OrdMap.values remoteIndex).filter fun e ↦ parentPath e.path = pfx

/-- A node that shares nothing yet. -/
def fresh : Node Posix.Disk :=
  Node.blank [lit "s"] (lit "A") (Posix.Disk.of [([lit "s"], .dir 0o755)] [])

/-- The nodes of a pull and of the tree of the peer. -/
def Pull.seenNodes (p : Pull Posix.Disk) : List TreeNode :=
  p.taken.map TakenNode.node ++ (deriveTree remoteIndex).nodes.toList.map Prod.snd

/-- The entries of a pull and of the peer. -/
def Pull.seenEntries (p : Pull Posix.Disk) : List Entry :=
  p.handed ++ OrdMap.values remoteIndex

/-- The strings of a pull and of the tree of the peer do not collide. -/
theorem withoutCollision_seen {p : Pull Posix.Disk} (hE : Keyed remoteIndex)
    (hnodes : ∀ node ∈ p.seenNodes, node.Fits) (hentries : ∀ e ∈ p.seenEntries, e.Fits)
    (hinj : ∀ bytes ∈ p.seenNodes.map TreeNode.bytes ++ p.seenEntries.map entryBytes,
      ∀ bytes' ∈ p.seenNodes.map TreeNode.bytes ++ p.seenEntries.map entryBytes,
        Blake3.digest bytes = Blake3.digest bytes' → bytes = bytes') :
    WithoutCollision (p.nodes ∪ (deriveTree remoteIndex).nodeSet)
      (p.entries ∪ {e | Included remoteIndex inclAll e}) := by
  refine withoutCollision_of_mem _ _ ?_ ?_ hnodes hentries hinj
  · rintro node (⟨t, ht, rfl⟩ | hnode)
    · exact List.mem_append_left _ (List.mem_map_of_mem ht)
    · exact List.mem_append_right _ (mem_of_mem_nodeSet hnode)
  · rintro e (he | he)
    · exact List.mem_append_left _ he
    · exact List.mem_append_right _ (OrdMap.mem_values_iff.mpr ⟨e.path, he.getElem? hE⟩)

/-- The honest peer only answers with nodes of the tree. -/
theorem verified_honest (hE : Keyed remoteIndex) (fuel : Nat) :
    (honest.pulled advertised fresh fuel).Verified := by
  refine verified_pulled (fun pfx node h ↦ ?_) _ _ _
  have hnode := eq_of_answers h
  exact ((deriveTreeWith_wellFormed hE).isNode hnode).hash_eq.symm

/-- A peer that answers with a node of its own and says that it has the hash. -/
def forger (hash : Hash) : Peer Posix.Disk :=
  answering (fun _ ↦ some ⟨lit "/",
    (∅ : BTreeMap Str Hash).insert (lit "b") (hashEntry (dirEntry (lit "b"))), ∅, hash⟩)
    fun _ ↦ [dirEntry (lit "b")]

omit [Blake3] in
/-- What the forger hands over is not in the index whose root was
advertised. -/
theorem forger_not_authenticated :
    letI : Blake3 := Blake3.reference
    let p := (forger advertised.stateRoot).pulled advertised fresh 1
    WithoutCollision (p.nodes ∪ (deriveTree remoteIndex).nodeSet)
        (p.entries ∪ {e | Included remoteIndex inclAll e}) ∧
      ∃ e ∈ p.handed, remoteIndex[e.path]? ≠ some e := by
  let _ : Blake3 := Blake3.reference
  intro p
  have hE : Keyed remoteIndex := by decide +kernel
  exact ⟨withoutCollision_seen hE (by decide +kernel) (by decide +kernel) (by decide +kernel),
    dirEntry (lit "b"), by decide +kernel, by decide +kernel⟩

/-- A node that says of itself and of its child that they have the same hash. -/
def endlessNode : TreeNode := ⟨[], ∅, (∅ : BTreeMap Str Hash).insert (lit "x") zeroHash, zeroHash⟩

/-- A peer that answers with it whatever it is asked for. -/
def endless : Peer Posix.Disk := answering (fun _ ↦ some endlessNode) fun _ ↦ []

/-- The node pulls from it and holds an empty tree. -/
structure AtEndless (p : Pull Posix.Disk) : Prop where
  tree_eq : p.node.folder.tree = TreeSnapshot.empty
  taken : ∀ t ∈ p.taken, t.node = endlessNode

theorem node_empty {folder : FolderState} (h : folder.tree = TreeSnapshot.empty) (pfx : Str) :
    ∀ node ∈ folder.node pfx, node.hash = hashNode (lit "/") ∅ ∅ ∧ node.children = ∅ := by
  intro node hnode
  rw [FolderState.node, h, TreeSnapshot.empty, OrdMap.getElem?_insert_eq] at hnode
  split at hnode
  · obtain rfl := Option.some.inj hnode
    exact ⟨rfl, rfl⟩
  · simp at hnode

/-- A node without entries hands nothing over. -/
theorem exec_reconcileEntries_endless (q : Pull Posix.Disk) (pfx : Str)
    (localNode : Option TreeNode) :
    exec (reconcileEntries endless pfx localNode endlessNode) q = (.ok [], q) := rfl

omit [Blake3] in
theorem exec_remoteNodeFor_endless (q : Pull Posix.Disk) (pfx : Str) :
    exec (remoteNodeFor endless ∅ pfx zeroHash) q = (.ok (endlessNode, false), q) := by
  have hget : HintedNodes.get ∅ pfx zeroHash = none := by simp [HintedNodes.get]
  rw [remoteNodeFor, hget]
  rfl

/-- Each turn goes one level down. -/
theorem exec_reconcileNode_endless {p : Pull Posix.Disk} (h : AtEndless p)
    (hempty : hashNode (lit "/") ∅ ∅ ≠ zeroHash) (pfx : Str) :
    ∃ p', exec (reconcileNode endless ∅ pfx zeroHash []) p =
      (.ok ([], [(joinPath pfx (lit "x"), zeroHash)]), p') ∧ AtEndless p' := by
  have hlocal := node_empty h.tree_eq pfx
  refine ⟨{ p with taken := ⟨pfx, zeroHash, endlessNode, false⟩ :: p.taken }, ?_, h.tree_eq,
    List.forall_mem_cons.mpr ⟨rfl, h.taken⟩⟩
  have hlock : exec (PullM.lock endless) p = (.ok p.node.folder, p) := rfl
  rw [reconcileNode, exec_bind_ok hlock]
  generalize p.node.folder.node pfx = localNode at hlocal
  have hdiffers : ¬ localNode.any fun node ↦ node.hash = zeroHash := by
    rw [Option.any_eq_true]
    rintro ⟨node, hnode, hhash⟩
    exact hempty ((hlocal node hnode).1.symm.trans (of_decide_eq_true hhash))
  have hqueue : queueChangedChildren pfx localNode endlessNode [] =
      [(joinPath pfx (lit "x"), zeroHash)] := by
    have hchild : (localNode.bind fun node ↦ node.children[lit "x"]?) ≠ some zeroHash := by
      cases localNode with
      | none => simp
      | some node =>
        have hnone : node.children[lit "x"]? = none := by
          rw [(hlocal node rfl).2]
          rfl
        simp [hnone]
    rw [queueChangedChildren, show endlessNode.children.toList = [(lit "x", zeroHash)] from rfl]
    exact if_neg hchild
  dsimp only
  rw [if_neg hdiffers, exec_bind_ok (exec_remoteNodeFor_endless p pfx)]
  dsimp only
  rw [if_neg (show ¬ endlessNode.hash ≠ zeroHash from not_not_intro rfl), exec_modify_bind,
    exec_bind_ok (exec_reconcileEntries_endless _ _ _), hqueue]
  rfl

theorem exec_reconcileLoop_endless (hempty : hashNode (lit "/") ∅ ∅ ≠ zeroHash) (fuel : Nat)
    {p : Pull Posix.Disk} (h : AtEndless p) (changes : List Change) (pfx : Str) :
    let r := exec (reconcileLoop endless ∅ fuel changes [(pfx, zeroHash)]) p
    r.1 = .ok none ∧ AtEndless r.2 := by
  induction fuel generalizing p changes pfx with
  | zero => exact ⟨rfl, h⟩
  | succ fuel ih =>
    obtain ⟨p', hstep, h'⟩ := exec_reconcileNode_endless h hempty pfx
    rw [reconcileLoop, exec_bind_ok hstep]
    exact ih h' _ _

/-- A pull from the endless peer does not end. -/
theorem pulled_endless (hempty : hashNode (lit "/") ∅ ∅ ≠ zeroHash) (fuel : Nat) :
    (exec (reconcileWithAdvertisedRoot endless fuel ⟨zeroHash, none⟩) (.start fresh)).1 =
        .ok none ∧ ∀ node ∈ (endless.pulled ⟨zeroHash, none⟩ fresh fuel).nodes,
      node = endlessNode := by
  have hlock : exec (PullM.lock endless) (.start fresh) = (.ok fresh.folder, .start fresh) := rfl
  have hroot : fresh.folder.tree.rootHash ≠ zeroHash := hempty
  have hstart : AtEndless (.start fresh) := ⟨rfl, fun _ h ↦ absurd h List.not_mem_nil⟩
  obtain ⟨hloop, hend⟩ := exec_reconcileLoop_endless hempty fuel hstart [] []
  rw [Peer.pulled, reconcileWithAdvertisedRoot, exec_bind_ok hlock]
  dsimp only
  rw [if_neg hroot, exec_bind]
  simp only [Option.map_none, Option.getD_none]
  generalize exec (reconcileLoop endless ∅ fuel [] [([], zeroHash)]) (.start fresh) = r at hloop hend
  obtain ⟨r, p⟩ := r
  obtain rfl : r = .ok none := hloop
  refine ⟨rfl, ?_⟩
  rintro node ⟨t, ht, rfl⟩
  exact hend.taken t ht

end Peers

end Lilsync
