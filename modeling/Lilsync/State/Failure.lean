import Lilsync.Disk
import Lilsync.State.Remote
import Lilsync.Tree.Derive

/-!
# What a failed call leaves behind

`apply_remote_entries` and `apply_paths` change the index element by element and
leave with `?`, before the trees follow and the files are written.  So a failed
call leaves the node consistent exactly when it had recorded nothing: when no
element before the failing one was accepted, or when the index agreed with
everything that was seen before the error.
-/

namespace Lilsync

open Std (ExtTreeMap)
open Lilsync.Lib Lilsync.Lib.Proc

variable {W : Type}

/-! ## Consistency -/

section Consistent

variable [Blake3]

/-- The snapshot lists exactly the included entries: the hash of each is in the
node of its parent, under its name. -/
def Lists (S : TreeSnapshot) (entries : Index) (incl : Entry → Bool) : Prop :=
  ∀ (k name : Str) (h : Hash),
    (∃ node, S.nodes[k]? = some node ∧ node.entries[name]? = some h) ↔
      ∃ (q : Str) (e : Entry), entries[q]? = some e ∧ incl e ∧
        parentPath q = k ∧ basename q = name ∧ hashEntry e = h

/-- The trees match the index. -/
structure TreesMatch (folder : FolderState) : Prop where
  tree : Lists folder.tree folder.entries inclAll
  liveTree : Lists folder.liveTree folder.entries inclLive

/-- The trees match the index after a call, and whatever the call changed in the
index is in the file. -/
structure Consistent (before after : Node W) : Prop where
  treesMatch : TreesMatch after.folder
  persisted : ∀ q : Str, after.folder.entries[q]? ≠ before.folder.entries[q]? →
    ∃ saved, after.store.entries = .saved saved ∧ saved[q]? = after.folder.entries[q]?

/-- What every index the code builds satisfies: an entry is at its own path, and
the clock has seen its version. -/
structure Replica.Regular (r : Replica) : Prop where
  path_eq : ∀ (k : Str) (e : Entry), r.entries[k]? = some e → e.path = k
  lamport_le : ∀ (k : Str) (e : Entry), r.entries[k]? = some e → e.version.lamport ≤ r.lamport

/-- No entry of the first index has the hash of a different one of the second. -/
def CollisionFree (entries entries' : Index) : Prop :=
  ∀ (k k' : Str) (e e' : Entry), entries[k]? = some e → entries'[k']? = some e' →
    hashEntry e = hashEntry e' → e = e'

/-- Well-formed trees list exactly the included entries. -/
theorem WellFormed.lists {S : TreeSnapshot} {entries : Index} {incl : Entry → Bool}
    (hE : Keyed entries) (h : WellFormed S entries incl) : Lists S entries incl := by
  intro k name hash
  constructor
  · rintro ⟨node, hnode, hentry⟩
    obtain ⟨e, hinc, hp, hb, hh⟩ := (h.isNode hnode).entries_iff.mp hentry
    exact ⟨e.path, e, hinc.getElem? hE, hinc.2, hp, hb, hh⟩
  · rintro ⟨q, e, hq, hincl, rfl, rfl, rfl⟩
    have hinc : Included entries incl e := ⟨⟨q, hq⟩, hincl⟩
    obtain rfl := hE.path_eq hq
    obtain ⟨node, hnode⟩ := Option.isSome_iff_exists.mp (ExtTreeMap.mem_iff_isSome_getElem?.mp
      (h.mem_of_spine (hinc.spine (SlashPath.parent_mem_ancestors _))))
    exact ⟨node, hnode, (h.isNode hnode).entries_iff.mpr ⟨e, hinc, rfl, rfl, rfl⟩⟩

/-- Freshly derived trees match the index. -/
theorem treesMatch_deriveTrees (folder : FolderState) (hE : Keyed folder.entries) :
    TreesMatch folder.deriveTrees :=
  ⟨(deriveTreeWith_wellFormed hE).lists hE, (deriveTreeWith_wellFormed hE).lists hE⟩

/-- Nothing is missing from a tree that lists both the old index and the new one. -/
theorem Lists.getElem?_eq {S : TreeSnapshot} {entries entries' : Index}
    (h : Lists S entries inclAll) (h' : Lists S entries' inclAll)
    (hpath : ∀ (k : Str) (e : Entry), entries[k]? = some e → e.path = k)
    (hfree : CollisionFree entries entries') {k : Str} {e : Entry} (he : entries'[k]? = some e)
    (hk : e.path = k) : entries[k]? = some e := by
  obtain ⟨q, e', hq, -, -, -, hhash⟩ :=
    (h _ _ _).mp ((h' _ _ _).mpr ⟨k, e, he, rfl, rfl, rfl, rfl⟩)
  obtain rfl := hfree q k e' e hq he hhash
  obtain rfl := (hpath q e' hq).symm.trans hk
  exact hq

end Consistent

/-! ## Remote batches -/

section Remote

variable [FileSystem W]

open FileSystem

/-- What the loop over a batch leaves behind if it gets through: the index is as
it was if nothing was accepted at the start, and holds something newer otherwise. -/
theorem exec_foldlM_applyRemoteItem_ok {batch : List (Entry × Option PathBuf)}
    {cs cs' : List Change} {n n' : Node W}
    (h : exec (batch.foldlM applyRemoteItem cs) n = (.ok cs', n')) :
    ∃ w r, n' = (n.withWorld w).withReplica r ∧
      (∀ path version, Replica.Held path version n.folder.toReplica →
        Replica.Held path version r) ∧
      ((∀ y ∈ batch, n.folder.shouldAcceptRemote y.1 = false) → r = n.folder.toReplica) ∧
      ((∃ y ∈ batch, n.folder.shouldAcceptRemote y.1) →
        ∃ y ∈ batch, n.folder.shouldAcceptRemote y.1 ∧
          Replica.Held y.1.path y.1.version r) := by
  induction batch generalizing cs n with
  | nil =>
    cases h
    exact ⟨n'.world, n'.folder.toReplica, rfl, fun _ _ h ↦ h, fun _ ↦ rfl, by simp⟩
  | cons item batch ih =>
    rw [List.foldlM_cons, exec_bind, exec_applyRemoteItem] at h
    obtain ⟨w, ⟨err, hcore⟩ | ⟨hacc, hcore⟩ | ⟨hacc, hcore⟩⟩ :=
      exec_applyRemoteEntryCore_cases item.1 item.2 n
    · rw [hcore] at h
      cases h
    · rw [hcore] at h
      obtain ⟨w', r, rfl, hheld, hnone, hsome⟩ := ih h
      refine ⟨w', r, rfl, hheld, fun hall ↦ hnone fun y hy ↦ hall y (List.mem_cons_of_mem _ hy), ?_⟩
      rintro ⟨y, hy, hya⟩
      rcases List.mem_cons.mp hy with rfl | hy
      · rw [hacc] at hya
        cases hya
      · obtain ⟨z, hz, hza, hzh⟩ := hsome ⟨y, hy, hya⟩
        exact ⟨z, List.mem_cons_of_mem _ hz, hza, hzh⟩
    · rw [hcore] at h
      obtain ⟨w', r, rfl, hheld, -, -⟩ := ih h
      refine ⟨w', r, rfl, fun path version hn ↦ hheld path version ?_, fun hall ↦ ?_, fun _ ↦
        ⟨item, List.mem_cons_self, hacc, hheld _ _ (Replica.held_recordRemote _ _)⟩⟩
      · exact hn.recordRemote fun e he ↦ Replica.lt_of_shouldAcceptRemote hacc he
      · rw [hall item List.mem_cons_self] at hacc
        cases hacc

variable [Blake3]

/-- A failed batch succeeded on the elements up to the one that failed, and saved
nothing. -/
theorem exec_applyRemoteEntries_error {batch : List (Entry × Option PathBuf)} {n n' : Node W}
    {err : IoError} (h : exec (applyRemoteEntries batch) n = (.error err, n')) :
    ∃ pre item post cs n₁ w, batch = pre ++ item :: post ∧
      exec (applyRemoteBatch pre) n = (.ok cs, n₁) ∧
      exec (applyRemoteEntryCore item.1 item.2) n₁ = (.error err, n') ∧
      n' = n₁.withWorld w := by
  rw [applyRemoteEntries, exec_bind, applyRemoteBatch_eq] at h
  match hloop : exec (batch.foldlM applyRemoteItem []) n with
  | (.ok cs, n₁) =>
    rw [hloop] at h
    dsimp only at h
    by_cases hc : cs = []
    · subst hc
      cases h
    · obtain ⟨w, l, e, hcommit, -⟩ := exec_commitChanges hc n₁
      rw [exec_bind_ok hcommit] at h
      cases h
  | (.error err', n₁) =>
    rw [hloop] at h
    cases h
    obtain ⟨pre, item, post, cs, n₂, rfl, hpre, hitem⟩ := exec_foldlM_applyRemoteItem_error hloop
    obtain ⟨w, ⟨err', hcore⟩ | ⟨-, hcore⟩ | ⟨-, hcore⟩⟩ :=
      exec_applyRemoteEntryCore_cases item.1 item.2 n₂ <;> rw [hcore] at hitem <;> cases hitem
    exact ⟨pre, item, post, cs, n₂, w, rfl, hpre, hcore, rfl⟩

/-- A failed batch leaves a consistent node if no element before the failing one
was accepted at the start, and only then. -/
theorem consistent_of_applyRemoteEntries_error {batch : List (Entry × Option PathBuf)}
    {n n' : Node W} {err : IoError} (hn : TreesMatch n.folder)
    (h : exec (applyRemoteEntries batch) n = (.error err, n')) :
    ∃ pre item post cs n₁, batch = pre ++ item :: post ∧
      exec (applyRemoteBatch pre) n = (.ok cs, n₁) ∧
      exec (applyRemoteEntryCore item.1 item.2) n₁ = (.error err, n') ∧
      ((∀ y ∈ pre, n.folder.shouldAcceptRemote y.1 = false) → Consistent n n') ∧
      (n.folder.Regular → CollisionFree n.folder.entries n'.folder.entries → Consistent n n' →
        ∀ y ∈ pre, n.folder.shouldAcceptRemote y.1 = false) := by
  obtain ⟨pre, item, post, cs, n₁, w, rfl, hpre, hitem, rfl⟩ := exec_applyRemoteEntries_error h
  obtain ⟨w', r, rfl, -, hnone, hsome⟩ := exec_foldlM_applyRemoteItem_ok hpre
  refine ⟨pre, item, post, cs, _, rfl, hpre, hitem, fun hall ↦ ?_, fun hreg hfree hcons ↦ ?_⟩
  · obtain rfl := hnone hall
    exact ⟨hn, fun q hq ↦ absurd rfl hq⟩
  · by_contra hacc
    obtain ⟨y, -, hy, -, e, he, hp, hv⟩ := hsome (by simpa using hacc)
    -- the tree of the start would have to list the new entry
    have hold := hn.tree.getElem?_eq hcons.treesMatch.tree hreg.path_eq hfree he hp
    exact absurd hv (Replica.lt_of_shouldAcceptRemote hy hold).not_ge

/-- A failed batch has written no file. -/
theorem store_of_applyRemoteEntries_error {batch : List (Entry × Option PathBuf)} {n n' : Node W}
    {err : IoError} (h : exec (applyRemoteEntries batch) n = (.error err, n')) :
    n'.store = n.store := by
  obtain ⟨pre, item, post, cs, n₁, w, -, hpre, -, rfl⟩ := exec_applyRemoteEntries_error h
  obtain ⟨w', r, rfl, -⟩ := exec_foldlM_applyRemoteItem_ok hpre
  rfl

end Remote

/-! ## Local events -/

section Local

variable [FileSystem W] [Blake3]

open FileSystem

/-- A failed `apply_paths` has recorded what it saw, and the rest of the node but
the world and the scan cache is as it was. -/
theorem exec_applyPaths_error {absPaths : List PathBuf} {n n' : Node W} {err : IoError}
    (h : exec (applyPaths absPaths) n = (.error err, n')) :
    ∃ v, n' = (n.withReplica
      (recordAll (eventSights n absPaths) (n.folder.toReplica, [])).1).withView v := by
  obtain ⟨v, ⟨hnil, -, hrescan⟩ | ⟨err', herr⟩ | hok⟩ := exec_applyPaths absPaths n
  · rw [hrescan] at h
    have hspec := exec_rescan (n.withView v)
    match hsurvey : exec (survey (n.withView v).folder.root) (n.withView v).view with
    | (.error err', v') =>
      rw [hsurvey] at hspec
      rw [hspec] at h
      cases h
      exact ⟨v', by rw [hnil]; rfl⟩
    | (.ok s, v') =>
      rw [hsurvey] at hspec
      obtain ⟨w, files, cache, hexec⟩ := hspec
      rw [hexec] at h
      cases h
  · rw [herr] at h
    cases h
    exact ⟨v, rfl⟩
  · rw [hok] at h
    obtain ⟨w, files, dirty, hcache⟩ := exec_saveScanCache ((n.withReplica
      (recordAll (eventSights n absPaths) (n.folder.toReplica, [])).1).withView v)
    rw [exec_bind_ok hcache] at h
    by_cases hc : (recordAll (eventSights n absPaths) (n.folder.toReplica, [])).2 = []
    · rw [hc] at h
      cases h
    · generalize (Node.mk _ _ _ : Node W) = n₁ at h
      obtain ⟨w, l, e, hcommit, -⟩ := exec_commitChanges hc n₁
      rw [exec_bind_ok hcommit] at h
      cases h

/-- A failed `apply_paths` leaves a consistent node if the index agreed with
everything seen before the error, and only then. -/
theorem consistent_of_applyPaths_error {absPaths : List PathBuf} {n n' : Node W} {err : IoError}
    (hn : TreesMatch n.folder) (h : exec (applyPaths absPaths) n = (.error err, n')) :
    (AllSettled n.folder.entries (eventSights n absPaths) → Consistent n n') ∧
      (n.folder.Regular → CollisionFree n.folder.entries n'.folder.entries → Consistent n n' →
        AllSettled n.folder.entries (eventSights n absPaths)) := by
  obtain ⟨v, rfl⟩ := exec_applyPaths_error h
  have hplaced : ∀ rs ∈ eventSights n absPaths, rs.2.Placed rs.1 :=
    fun _ ↦ placed_of_mem_eventSights
  obtain ⟨hself, hadds⟩ := recordAll_eq_self_or_adds hplaced (n.folder.toReplica, [])
  constructor
  · intro hset
    rw [hself hset]
    exact ⟨⟨hn.tree, hn.liveTree⟩, fun q hq ↦ absurd rfl hq⟩
  · intro hreg hfree hcons
    by_contra hset
    obtain ⟨c, cs, hc⟩ := hadds hset
    obtain ⟨cs', hcs', hfresh⟩ := (stamps_recordAll hplaced (n.folder.toReplica, [])).grown.changes
    have hmem : c ∈ cs' := by
      rw [hc] at hcs'
      simp only [List.nil_append] at hcs'
      exact hcs' ▸ List.mem_cons_self
    obtain ⟨e, he, hf⟩ := hfresh c hmem
    have hold := hn.tree.getElem?_eq hcons.treesMatch.tree hreg.path_eq hfree he hf.path_eq
    exact absurd (hreg.lamport_le _ _ hold) hf.lt_lamport.not_ge

end Local

/-! ## Both calls -/

section Both

variable [FileSystem W] [Blake3]

/-- When a failed call leaves a consistent node, whatever the file system does
and wherever the call fails. -/
theorem consistent_after_error_iff {n : Node W} (hn : TreesMatch n.folder) :
    (∀ batch err n', exec (applyRemoteEntries batch) n = (.error err, n') →
      ∃ pre item post cs n₁, batch = pre ++ item :: post ∧
        exec (applyRemoteBatch pre) n = (.ok cs, n₁) ∧
        exec (applyRemoteEntryCore item.1 item.2) n₁ = (.error err, n') ∧
        ((∀ y ∈ pre, n.folder.shouldAcceptRemote y.1 = false) → Consistent n n') ∧
        (n.folder.Regular → CollisionFree n.folder.entries n'.folder.entries → Consistent n n' →
          ∀ y ∈ pre, n.folder.shouldAcceptRemote y.1 = false)) ∧
    ∀ absPaths err n', exec (applyPaths absPaths) n = (.error err, n') →
      (AllSettled n.folder.entries (eventSights n absPaths) → Consistent n n') ∧
      (n.folder.Regular → CollisionFree n.folder.entries n'.folder.entries → Consistent n n' →
        AllSettled n.folder.entries (eventSights n absPaths)) :=
  ⟨fun _ _ _ ↦ consistent_of_applyRemoteEntries_error hn,
    fun _ _ _ ↦ consistent_of_applyPaths_error hn⟩

omit [FileSystem W] in
theorem treesMatch_blank (root : PathBuf) (origin : Str) (w : W) :
    TreesMatch (Node.blank root origin w).folder := by
  have h (incl : Entry → Bool) : Lists TreeSnapshot.empty ∅ incl := by
    refine fun k name hash ↦ ⟨?_, by simp⟩
    rintro ⟨node, hnode, hentry⟩
    rw [TreeSnapshot.empty, OrdMap.getElem?_insert_eq] at hnode
    split at hnode
    · obtain rfl := Option.some.inj hnode
      simp at hentry
    · simp at hnode
  exact ⟨h _, h _⟩

omit [FileSystem W] [Blake3] in
/-- The downloaded object of a file is missing, and nothing came before it. -/
theorem consistent_after_missing_object :
    letI : Blake3 := Blake3.reference
    let n := Node.blank [lit "s"] (lit "A") (Posix.Disk.of [([lit "s"], .dir 0o755)] [])
    Consistent n (exec (applyRemoteEntries
      [(⟨lit "b", .file, some zeroHash, none, 0, none, ⟨1, lit "B"⟩⟩, none)]) n).2 := by
  let _ : Blake3 := Blake3.reference
  intro n
  obtain ⟨pre, item, post, cs, n₁, heq, -, -, h, -⟩ :=
    (consistent_after_error_iff (treesMatch_blank _ _ _)).1
      [(⟨lit "b", .file, some zeroHash, none, 0, none, ⟨1, lit "B"⟩⟩, none)] _ _
      (show exec _ n = (.error (.invalidInput (.missingTmpPath (lit "b"))), _) from rfl)
  have hlen := congrArg List.length heq
  have hpre : pre = [] := List.eq_nil_of_length_eq_zero (by simp at hlen; omega)
  exact h fun y hy ↦ by simp [hpre] at hy

omit [FileSystem W] [Blake3] in
/-- The counterexample: a directory is installed and recorded before the file
whose object is missing.  The index has it, and no saved file does. -/
theorem not_forall_consistent_after_error :
    letI : Blake3 := Blake3.reference
    ¬ ∀ (n : Node Posix.Disk), TreesMatch n.folder → ∀ batch err n',
      exec (applyRemoteEntries batch) n = (.error err, n') → Consistent n n' := by
  let _ : Blake3 := Blake3.reference
  intro h
  have hrun := Prod.ext (y := (.error (.invalidInput (.missingTmpPath (lit "b"))), _))
    (show (exec (applyRemoteEntries [(⟨lit "a", .dir, none, none, 0, none, ⟨1, lit "B"⟩⟩, none),
        (⟨lit "b", .file, some zeroHash, none, 0, none, ⟨2, lit "B"⟩⟩, none)])
      (Node.blank [lit "s"] (lit "A")
        (Posix.Disk.of [([lit "s"], .dir 0o755)] []))).1 = _ by decide +kernel) rfl
  obtain ⟨saved, hsaved, -⟩ := (h _ (treesMatch_blank _ _ _) _ _ _ hrun).persisted (lit "a")
    (by decide +kernel)
  rw [store_of_applyRemoteEntries_error hrun] at hsaved
  cases hsaved

end Both

end Lilsync
