import Lilsync.Rpc
import Lilsync.State.Batch
import Lilsync.State.Sound
import Lilsync.Sync.Authentic
import Lilsync.Sync.Listing

/-!
# What comes of the entries of an honest peer

An honest peer answers from its folder, which may change between two requests.  The
entries that it sends for a node are applied, or they would never be accepted, or
something later is held at their paths: the index has caught up with them.  Whatever
is applied afterwards keeps that, for nothing that is held at some version is ever held
at an earlier one again.

The clock has to be at or above the versions in the index.  A node whose clock has
fallen behind buries an entry under a version that is before its own.
-/

namespace Lilsync

open Std (ExtTreeMap)
open Lilsync.Lib Lilsync.Lib.Proc Lilsync.Lib.SlashPath

/-! ## What is held stays held -/

namespace Replica

variable {r r' r'' : Replica} {st st' : Recorded} {remote e : Entry}

/-- Nothing is forgotten, and the watermark stays. -/
structure Advances (r r' : Replica) : Prop where
  gcWatermark_eq : r'.gcWatermark = r.gcWatermark
  held : ∀ path version, Held path version r → Held path version r'
  regular : r.Regular → r'.Regular

theorem Advances.refl (r : Replica) : Advances r r := ⟨rfl, fun _ _ ↦ id, id⟩

theorem Advances.trans (h : Advances r r') (h' : Advances r' r'') : Advances r r'' :=
  ⟨h'.gcWatermark_eq.trans h.gcWatermark_eq,
    fun path version hr ↦ h'.held path version (h.held path version hr), h'.regular ∘ h.regular⟩

theorem advances_of_stamps (h : Stamps st st') : Advances st.1 st'.1 where
  gcWatermark_eq := h.grown.gcWatermark_eq
  held _ _ hr := hr.stamps h
  regular hr := by
    refine ⟨fun k e he ↦ ?_, fun k e he ↦ ?_⟩
    · rcases h.grown.entries k with heq | ⟨e', he', hf⟩
      · exact hr.path_eq k e (heq ▸ he)
      · exact Option.some.inj (he'.symm.trans he) ▸ hf.path_eq
    · rcases h.grown.entries k with heq | ⟨e', he', hf⟩
      · exact (hr.lamport_le k e (heq ▸ he)).trans h.grown.lamport_le
      · exact Option.some.inj (he'.symm.trans he) ▸ hf.lamport_le

theorem advances_receive (h : r.shouldAcceptRemote remote) : Advances r (r.receive remote) where
  gcWatermark_eq := rfl
  held _ _ hr := hr.receive fun _ hx ↦ lt_of_shouldAcceptRemote h hx
  regular hr := by
    refine ⟨fun k e he ↦ ?_, fun k e he ↦ ?_⟩ <;> rw [getElem?_receive] at he <;> split at he
    · next hk => exact Option.some.inj he ▸ hk
    · exact hr.path_eq k e he
    · exact Option.some.inj he ▸ Nat.le_max_right _ _
    · exact (hr.lamport_le k e he).trans (Nat.le_max_left _ _)

theorem advances_recordRemote (h : r.shouldAcceptRemote remote) :
    Advances r (recordRemote r remote).1 := by
  obtain ⟨cs, -, hst⟩ := stamps_recordRemote r remote
  exact (advances_receive h).trans (advances_of_stamps hst :)

/-- The index holds the entry or something later, unless it would never take it: its path is
not valid, or it is a tombstone that the watermark covers. -/
def CaughtUp (r : Replica) (e : Entry) : Prop :=
  ¬ ValidRemotePath e.path ∨ (e.kind = .tombstone ∧ r.isVersionGced e.version) ∨
    Held e.path e.version r

theorem CaughtUp.advances (h : CaughtUp r e) (ha : Advances r r') : CaughtUp r' e := by
  refine h.imp id (.imp (fun ⟨ht, hc⟩ ↦ ⟨ht, ?_⟩) (ha.held _ _))
  rwa [isVersionGced, ha.gcWatermark_eq]

/-- What is in the index is caught up with. -/
theorem Regular.caughtUp (h : r.Regular) (he : r.entries[e.path]? = some e) : CaughtUp r e :=
  .inr (.inr ⟨h.lamport_le _ _ he, e, he, rfl, le_rfl⟩)

/-- What is not accepted is caught up with. -/
theorem Regular.caughtUp_of_not_accepted (h : r.Regular)
    (hacc : r.shouldAcceptRemote remote = false) : CaughtUp r remote := by
  rw [shouldAcceptRemote] at hacc
  split at hacc
  · next hvalid => exact .inl hvalid
  · split at hacc
    · next hcovered =>
      rw [Bool.and_eq_true, decide_eq_true_eq] at hcovered
      exact .inr (.inl hcovered)
    · split at hacc
      · next x hx =>
        have hle : remote.version ≤ x.version := not_lt.mp (of_decide_eq_false hacc)
        exact .inr (.inr ⟨(Version.lamport_le_of_le hle).trans (h.lamport_le _ _ hx), x, hx,
          h.path_eq _ _ hx, hle⟩)
      · cases hacc

/-- What is accepted is caught up with once it is recorded. -/
theorem caughtUp_recordRemote (r : Replica) (remote : Entry) :
    CaughtUp (recordRemote r remote).1 remote :=
  .inr (.inr (held_recordRemote r remote))

end Replica

/-! ## Applying entries -/

section Apply

open Replica

variable {W : Type} [FileSystem W] {n n' : Node W} {batch : List (Entry × Option PathBuf)}
  {cs cs' : List Change}

/-- A loop that succeeds has caught up with its entries. -/
theorem advances_foldlM_applyRemoteItem
    (h : exec (batch.foldlM applyRemoteItem cs) n = (.ok cs', n')) :
    Advances n.folder.toReplica n'.folder.toReplica ∧ (n.folder.Regular →
      ∀ item ∈ batch, CaughtUp n'.folder.toReplica item.1) := by
  induction batch generalizing cs n with
  | nil =>
    cases h
    exact ⟨.refl _, fun _ _ hmem ↦ absurd hmem List.not_mem_nil⟩
  | cons item batch ih =>
    rw [List.foldlM_cons, exec_bind, exec_applyRemoteItem] at h
    obtain ⟨w, ⟨err, hcore⟩ | ⟨hacc, hcore⟩ | ⟨hacc, hcore⟩⟩ :=
      exec_applyRemoteEntryCore_cases item.1 item.2 n <;> rw [hcore] at h
    · cases h
    · obtain ⟨hadv, hcaught⟩ := ih h
      refine ⟨hadv, fun hn item' hmem ↦ ?_⟩
      rcases List.mem_cons.mp hmem with rfl | hmem
      · exact (hn.caughtUp_of_not_accepted hacc).advances hadv
      · exact hcaught hn item' hmem
    · obtain ⟨hadv, hcaught⟩ := ih h
      have hrec := advances_recordRemote hacc
      refine ⟨hrec.trans hadv, fun hn item' hmem ↦ ?_⟩
      rcases List.mem_cons.mp hmem with rfl | hmem
      · exact (caughtUp_recordRemote _ _).advances hadv
      · exact hcaught (hrec.regular hn) item' hmem

variable [Blake3]

/-- A node whose trees belong to its index, and whose clock has seen what is in it. -/
structure Node.InOrder (n : Node W) : Prop where
  upToDate : n.folder.UpToDate
  regular : n.folder.Regular

/-- What a part of a pull does to a node that is in order. -/
structure Node.GoesOn (n n' : Node W) : Prop where
  advances : Advances n.folder.toReplica n'.folder.toReplica
  inOrder : n.InOrder → n'.InOrder

omit [FileSystem W] in
theorem Node.GoesOn.of_folder_eq (h : n'.folder = n.folder) : n.GoesOn n' :=
  ⟨h ▸ .refl _, fun hn ↦ ⟨h ▸ hn.upToDate, h ▸ hn.regular⟩⟩

omit [FileSystem W] in
theorem Node.GoesOn.trans {n'' : Node W} (h : n.GoesOn n') (h' : n'.GoesOn n'') : n.GoesOn n'' :=
  ⟨h.advances.trans h'.advances, h'.inOrder ∘ h.inOrder⟩

theorem exec_applyRemoteEntries_ok (h : exec (applyRemoteEntries batch) n = (.ok cs, n')) :
    n.GoesOn n' ∧ (n.InOrder → ∀ item ∈ batch, CaughtUp n'.folder.toReplica item.1) := by
  rw [applyRemoteEntries] at h
  obtain ⟨cs₁, n₁, hloop, h⟩ := of_exec_bind h
  have hnotes := notes_applyRemoteBatch hloop
  have hdressed := dressed_of_exec_applyRemoteBatch hloop
  have htree : n₁.folder.tree = n.folder.tree := congrArg (·.folder.tree) hdressed.symm
  have hlive : n₁.folder.liveTree = n.folder.liveTree := congrArg (·.folder.liveTree) hdressed.symm
  rw [applyRemoteBatch_eq] at hloop
  obtain ⟨hadv, hcaught⟩ := advances_foldlM_applyRemoteItem hloop
  by_cases hc : cs₁ = []
  · subst hc
    cases h
    refine ⟨⟨hadv, fun hn ↦ ⟨?_, hadv.regular hn.regular⟩⟩, fun hn ↦ hcaught hn.regular⟩
    have heq := hnotes.eq_of_nil rfl
    obtain ⟨hkeyed, hwf, hwf'⟩ := hn.upToDate
    refine ⟨?_, ?_, ?_⟩
    · rwa [heq]
    · rwa [heq, htree]
    · rwa [heq, hlive]
  · obtain ⟨w, l, e, hcommit, -⟩ := exec_commitChanges hc n₁
    rw [exec_bind_ok hcommit] at h
    cases h
    refine ⟨⟨hadv, fun hn ↦ ⟨?_, hadv.regular hn.regular⟩⟩, fun hn ↦ hcaught hn.regular⟩
    obtain ⟨hkeyed, hwf, hwf'⟩ := hn.upToDate.updateTrees hnotes
    refine ⟨hkeyed, ?_, ?_⟩
    · change WellFormed (updateTreeSnapshot n₁.folder.tree _ _ _) _ _
      rwa [htree]
    · change WellFormed (updateTreeSnapshot n₁.folder.liveTree _ _ _) _ _
      rwa [hlive]

end Apply

/-! ## Honest peers -/

variable [Blake3]

/-- An honest peer: its server answers a request from the folder as it is at that time, or fails.
No other pull claims a file, so a download gets it or fails.  Meanwhile the other tasks of
the node forget nothing. -/
structure Peer.Serves {W : Type} (peer : Peer W) (history : Set FolderState) : Prop where
  upToDate : ∀ remote ∈ history, remote.UpToDate
  getNode : ∀ {pfx w answer w'}, exec (peer.getNode pfx) w = (.ok answer, w') →
    ∃ remote ∈ history, answer = remote.node pfx
  getEntries : ∀ {pfx w sent w'}, exec (peer.getEntries pfx) w = (.ok sent, w') →
    ∃ remote ∈ history, sent = entriesAt remote pfx
  fetchObjectOnce : ∀ contentHash e w, (exec (peer.fetchObjectOnce contentHash e) w).1 ≠ .ok none
  otherTasks : ∀ n : Node W, n.GoesOn (peer.otherTasks n)

section Serves

variable {W : Type} {peer : Peer W} {history : Set FolderState} {p p' : Pull W} {α : Type}

/-- The node goes on, and no node was taken. -/
structure Pull.Waits (p p' : Pull W) : Prop where
  goesOn : p.node.GoesOn p'.node
  taken_eq : p'.taken = p.taken

theorem Pull.Waits.refl (p : Pull W) : p.Waits p := ⟨.of_folder_eq rfl, rfl⟩

theorem Pull.Waits.trans {p'' : Pull W} (h : p.Waits p') (h' : p'.Waits p'') : p.Waits p'' :=
  ⟨h.goesOn.trans h'.goesOn, h'.taken_eq.trans h.taken_eq⟩

theorem Pull.Waits.inOrder (h : p.Waits p') (hp : p.node.InOrder) : p'.node.InOrder :=
  h.goesOn.inOrder hp

/-- The state in which the lock was got. -/
def Pull.locked (peer : Peer W) (p : Pull W) : Pull W := { p with node := peer.otherTasks p.node }

omit [Blake3] in
theorem exec_lock (peer : Peer W) (p : Pull W) :
    exec (PullM.lock peer) p = (.ok (p.locked peer).node.folder, p.locked peer) := rfl

theorem Peer.Serves.waits_locked (hs : peer.Serves history) (p : Pull W) :
    p.Waits (p.locked peer) := ⟨hs.otherTasks p.node, rfl⟩

theorem of_exec_ask {m : Fs W α} {a : α} (h : exec (PullM.ask m) p = (.ok a, p')) :
    p.Waits p' ∧ ∃ w', exec m p.node.world = (.ok a, w') := by
  rw [PullM.ask, PullM.onNode, exec_ofExec, exec_fs_world] at h
  generalize exec m p.node.world = r at h
  obtain ⟨err | a', w'⟩ := r
  · cases h
  · cases h
    exact ⟨⟨.of_folder_eq rfl, rfl⟩, w', rfl⟩

omit [Blake3] in
/-- What the peer sends is in its index. -/
theorem getElem?_of_mem_entriesAt {remote : FolderState} (hE : Keyed remote.entries)
    {pfx : Str} {e : Entry} (he : e ∈ entriesAt remote pfx) :
    remote.entries[e.path]? = some e := by
  rw [entriesAt] at he
  split at he
  · exact absurd he List.not_mem_nil
  · obtain ⟨name, -, hname⟩ := List.mem_filterMap.mp he
    rw [FolderState.entry] at hname
    rwa [hE.path_eq hname]

variable {pfx : Str} {localNode : Option TreeNode} {allRemote : Index}
  {toApply toApply' : List Entry} {l : List (Str × Hash)}

/-- What a turn of the first loop does with an item that the remote node lists: the local node
lists the same, or an entry was sent that is to be applied or has been caught up with. -/
def Selects (pfx : Str) (localNode : Option TreeNode) (allRemote : Index) (nameHash : Str × Hash)
    (toApply : List Entry) (p : Pull W) : Prop :=
  (localNode.bind fun node ↦ node.entries[nameHash.1]?) = some nameHash.2 ∨
    ∃ e, allRemote[joinPath pfx nameHash.1]? = some e ∧ hashEntry e = nameHash.2 ∧
      (e ∈ toApply ∨ Replica.CaughtUp p.node.folder.toReplica e)

theorem of_exec_selectEntry (hs : peer.Serves history) (hp : p.node.InOrder)
    {nameHash : Str × Hash}
    (h : exec (selectEntry peer pfx localNode allRemote toApply nameHash) p = (.ok toApply', p')) :
    (p.Waits p' ∧ toApply ⊆ toApply') ∧ Selects pfx localNode allRemote nameHash toApply' p' := by
  obtain ⟨name, remoteHash⟩ := nameHash
  rw [selectEntry] at h
  dsimp only at h
  split at h
  · next hsame =>
    cases h
    exact ⟨⟨.refl p, List.Subset.refl _⟩, .inl hsame⟩
  · split at h
    · cases h
    · next e he =>
      split at h
      · cases h
      · next hhash =>
        rw [exec_bind_ok (exec_lock peer p)] at h
        have hwaits := hs.waits_locked p
        split at h
        · cases h
          exact ⟨⟨hwaits, List.subset_append_left _ _⟩, .inr ⟨e, he, not_not.mp hhash,
            .inl (List.mem_append_right _ (List.mem_singleton_self e))⟩⟩
        · next hacc =>
          cases h
          have hregular := (hwaits.inOrder hp).regular
          exact ⟨⟨hwaits, List.Subset.refl _⟩, .inr ⟨e, he, not_not.mp hhash,
            .inr (hregular.caughtUp_of_not_accepted (Bool.not_eq_true _ ▸ hacc))⟩⟩

theorem of_exec_selectEntries (hs : peer.Serves history) (hp : p.node.InOrder)
    (h : exec (l.foldlM (selectEntry peer pfx localNode allRemote) toApply) p =
      (.ok toApply', p')) :
    p.Waits p' ∧ ∀ nameHash ∈ l, Selects pfx localNode allRemote nameHash toApply' p' := by
  have hkeep : ∀ (nameHash : Str × Hash) (x y : List Entry × Pull W),
      Selects pfx localNode allRemote nameHash x.1 x.2 → x.2.Waits y.2 ∧ x.1 ⊆ y.1 →
        Selects pfx localNode allRemote nameHash y.1 y.2 := by
    rintro nameHash x y hx ⟨hwaits, hsub⟩
    refine hx.imp id fun ⟨e, he, hhash, hacc⟩ ↦ ⟨e, he, hhash, ?_⟩
    exact hacc.imp (fun hmem ↦ hsub hmem) fun hcaught ↦ hcaught.advances hwaits.goesOn.advances
  obtain ⟨⟨hwaits, -⟩, hselects⟩ := of_exec_foldlM (I := fun p ↦ p.node.InOrder)
    (R := fun x y ↦ x.2.Waits y.2 ∧ x.1 ⊆ y.1)
    (fun x ↦ ⟨.refl x.2, List.Subset.refl _⟩)
    (fun x y z hxy hyz ↦ ⟨hxy.1.trans hyz.1, List.Subset.trans hxy.2 hyz.2⟩)
    (fun nameHash _ toApply p toApply' p' hp hturn ↦
      have hselect := of_exec_selectEntry hs hp hturn
      ⟨hselect.1.1.inOrder hp, hselect⟩) hkeep hp h
  exact ⟨hwaits, hselects⟩

/-- The entry is in one of the batches of the second loop. -/
def Sorted (e : Entry) (st : List (Hash × Entry) × List (Entry × Option PathBuf)) : Prop :=
  (∃ contentHash, (contentHash, e) ∈ st.1) ∨ (e, none) ∈ st.2

omit [Blake3] in
theorem of_exec_sortEntry {e : Entry} {st st' : List (Hash × Entry) × List (Entry × Option PathBuf)}
    (h : exec (sortEntry st e) p = (.ok st', p')) :
    (p' = p ∧ st.1 ⊆ st'.1 ∧ st.2 ⊆ st'.2) ∧ Sorted e st' := by
  rw [sortEntry] at h
  split at h
  · split at h
    · cases h
    · cases h
      exact ⟨⟨rfl, List.subset_append_left _ _, List.Subset.refl _⟩,
        .inl ⟨_, List.mem_append_right _ (List.mem_singleton_self _)⟩⟩
  · cases h
    exact ⟨⟨rfl, List.Subset.refl _, List.subset_append_left _ _⟩,
      .inr (List.mem_append_right _ (List.mem_singleton_self _))⟩

omit [Blake3] in
theorem of_exec_sortEntries {es : List Entry}
    {st st' : List (Hash × Entry) × List (Entry × Option PathBuf)}
    (h : exec (es.foldlM sortEntry st) p = (.ok st', p')) :
    p' = p ∧ ∀ e ∈ es, Sorted e st' := by
  have hkeep : ∀ (e : Entry) (x y : (List (Hash × Entry) × List (Entry × Option PathBuf)) × Pull W),
      Sorted e x.1 → y.2 = x.2 ∧ x.1.1 ⊆ y.1.1 ∧ x.1.2 ⊆ y.1.2 → Sorted e y.1 := by
    rintro e x y hx ⟨-, hfiles, hrest⟩
    exact hx.imp (fun ⟨contentHash, hmem⟩ ↦ ⟨contentHash, hfiles hmem⟩) fun hmem ↦ hrest hmem
  obtain ⟨⟨rfl, -⟩, hsorted⟩ := of_exec_foldlM (I := fun _ ↦ True)
    (R := fun x y ↦ y.2 = x.2 ∧ x.1.1 ⊆ y.1.1 ∧ x.1.2 ⊆ y.1.2)
    (fun x ↦ ⟨rfl, List.Subset.refl _, List.Subset.refl _⟩)
    (fun x y z hxy hyz ↦ ⟨hyz.1.trans hxy.1, List.Subset.trans hxy.2.1 hyz.2.1,
      List.Subset.trans hxy.2.2 hyz.2.2⟩)
    (fun e _ st p st' p' _ hturn ↦ ⟨trivial, of_exec_sortEntry hturn⟩) hkeep trivial h
  exact ⟨rfl, hsorted⟩

theorem of_exec_joinNext (hs : peer.Serves history) {file : Hash × Entry}
    {fileBatch fileBatch' : List (Entry × Option PathBuf)}
    (h : exec (joinNext peer fileBatch file) p = (.ok fileBatch', p')) :
    (p.Waits p' ∧ fileBatch ⊆ fileBatch') ∧ ∃ tmp, (file.2, tmp) ∈ fileBatch' := by
  rw [joinNext] at h
  obtain ⟨tmp, p₁, hask, h⟩ := of_exec_bind h
  obtain ⟨hwaits, w, hfetch⟩ := of_exec_ask hask
  cases tmp with
  | none => exact absurd (by rw [hfetch]) (hs.fetchObjectOnce file.1 file.2 p.node.world)
  | some tmpPath =>
    cases h
    exact ⟨⟨hwaits, List.subset_append_left _ _⟩, _,
      List.mem_append_right _ (List.mem_singleton_self _)⟩

/-- The third loop gets every file. -/
theorem of_exec_joinFiles (hs : peer.Serves history) {files : List (Hash × Entry)}
    {fileBatch fileBatch' : List (Entry × Option PathBuf)}
    (h : exec (files.foldlM (joinNext peer) fileBatch) p = (.ok fileBatch', p')) :
    p.Waits p' ∧ ∀ file ∈ files, ∃ tmp, (file.2, tmp) ∈ fileBatch' := by
  have hkeep : ∀ (file : Hash × Entry) (x y : List (Entry × Option PathBuf) × Pull W),
      (∃ tmp, (file.2, tmp) ∈ x.1) → x.2.Waits y.2 ∧ x.1 ⊆ y.1 → ∃ tmp, (file.2, tmp) ∈ y.1 := by
    rintro file x y ⟨tmp, hmem⟩ ⟨-, hsub⟩
    exact ⟨tmp, hsub hmem⟩
  obtain ⟨⟨hwaits, -⟩, hfiles⟩ := of_exec_foldlM (I := fun _ ↦ True)
    (R := fun x y ↦ x.2.Waits y.2 ∧ x.1 ⊆ y.1)
    (fun x ↦ ⟨.refl x.2, List.Subset.refl _⟩)
    (fun x y z hxy hyz ↦ ⟨hxy.1.trans hyz.1, List.Subset.trans hxy.2 hyz.2⟩)
    (fun file _ fileBatch p fileBatch' p' _ hturn ↦ ⟨trivial, of_exec_joinNext hs hturn⟩)
    hkeep trivial h
  exact ⟨hwaits, hfiles⟩

variable [FileSystem W]

/-- What is handed over is caught up with. -/
theorem of_exec_applyHanded (hs : peer.Serves history) {batch : List (Entry × Option PathBuf)}
    {cs : List Change} (h : exec (applyHanded peer batch) p = (.ok cs, p')) :
    p.Waits p' ∧ (p.node.InOrder →
      ∀ item ∈ batch, Replica.CaughtUp p'.node.folder.toReplica item.1) := by
  rw [applyHanded] at h
  split at h
  · next hnil =>
    cases h
    exact ⟨.refl p, fun _ item hmem ↦ absurd (hnil ▸ hmem) List.not_mem_nil⟩
  · rw [exec_bind_ok (exec_lock peer p), exec_modify_bind, PullM.onNode, exec_ofExec] at h
    dsimp only at h
    have hwaits := hs.waits_locked p
    rcases hexec : exec (applyRemoteEntries batch) (p.locked peer).node with ⟨err | changes, n'⟩
    · rw [hexec] at h
      cases h
    · rw [hexec] at h
      cases h
      obtain ⟨hgoes, hcaught⟩ := exec_applyRemoteEntries_ok hexec
      exact ⟨⟨hwaits.goesOn.trans hgoes, rfl⟩, fun hp ↦ hcaught (hwaits.inOrder hp)⟩

/-- What a node lists is caught up with, unless the local node lists the same. -/
theorem of_exec_reconcileEntries (hs : peer.Serves history) {remoteNode : TreeNode}
    {changes : List Change} (hp : p.node.InOrder)
    (h : exec (reconcileEntries peer pfx localNode remoteNode) p = (.ok changes, p')) :
    p.Waits p' ∧ ∀ name hash, remoteNode.entries[name]? = some hash →
      (localNode.bind fun node ↦ node.entries[name]?) = some hash ∨
        ∃ remote ∈ history, ∃ e, remote.entries[e.path]? = some e ∧ e.path = joinPath pfx name ∧
          hashEntry e = hash ∧ Replica.CaughtUp p'.node.folder.toReplica e := by
  rw [reconcileEntries] at h
  obtain ⟨sent, p₁, hsent, h₁⟩ := of_exec_bind h
  obtain ⟨hwaits₁, w, hsent⟩ := of_exec_ask hsent
  obtain ⟨toApply, p₂, hselect, h₂⟩ := of_exec_bind h₁
  obtain ⟨⟨files, nonFileBatch⟩, p₃, hsort, h₃⟩ := of_exec_bind h₂
  obtain ⟨cs, p₄, happly, h₄⟩ := of_exec_bind h₃
  obtain ⟨order, p₅, horder, h₅⟩ := of_exec_bind h₄
  obtain ⟨fileBatch, p₆, hjoin, h₆⟩ := of_exec_bind h₅
  obtain ⟨cs', p₇, happly', h₇⟩ := of_exec_bind h₆
  cases h₇
  obtain ⟨remote, hmem, rfl⟩ := hs.getEntries hsent
  have hin₁ := hwaits₁.inOrder hp
  obtain ⟨hwaits₂, hselects⟩ := of_exec_selectEntries hs hin₁ hselect
  have hin₂ := hwaits₂.inOrder hin₁
  obtain ⟨rfl, hsorted⟩ := of_exec_sortEntries hsort
  obtain ⟨hwaits₄, hcaught₄⟩ := of_exec_applyHanded hs happly
  obtain ⟨hwaits₅, -⟩ := of_exec_ask horder
  obtain ⟨hwaits₆, hfiles⟩ := of_exec_joinFiles hs hjoin
  obtain ⟨hwaits₇, hcaught₇⟩ := of_exec_applyHanded hs happly'
  have hin₆ := (hwaits₅.trans hwaits₆).inOrder (hwaits₄.inOrder hin₂)
  have hrest := hwaits₅.trans (hwaits₆.trans hwaits₇)
  refine ⟨hwaits₁.trans (hwaits₂.trans (hwaits₄.trans hrest)), fun name hash hlisted ↦ ?_⟩
  refine (hselects (name, hash)
    (ExtTreeMap.mem_toList_iff_getElem?_eq_some.mpr hlisted)).imp id ?_
  rintro ⟨e, he, hhash, hacc⟩
  obtain ⟨e', he', heq⟩ := List.mem_map.mp (OrdMap.mem_of_getElem?_ofList he)
  obtain ⟨hpath, rfl⟩ := Prod.mk.inj heq
  refine ⟨remote, hmem, e',
    getElem?_of_mem_entriesAt (hs.upToDate remote hmem).keyed he', hpath, hhash, ?_⟩
  rcases hacc with hacc | hcaught
  · rcases hsorted e' hacc with ⟨contentHash, hfile⟩ | hnonFile
    · obtain ⟨i, hi⟩ := List.get_of_mem hfile
      have hjoined : (contentHash, e') ∈ List.ofFn fun i ↦ files.get (order i) :=
        List.mem_ofFn.mpr ⟨order.symm i, by rw [Equiv.apply_symm_apply, hi]⟩
      obtain ⟨tmp, htmp⟩ := hfiles _ hjoined
      exact hcaught₇ hin₆ _ htmp
    · exact (hcaught₄ hin₂ _ hnonFile).advances hrest.goesOn.advances
  · exact hcaught.advances (hwaits₄.trans hrest).goesOn.advances

end Serves

end Lilsync
