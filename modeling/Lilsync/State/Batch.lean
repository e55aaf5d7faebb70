import Lilsync.Blake3
import Lilsync.Disk
import Lilsync.Replica.Bury
import Lilsync.State.Failure
import Lilsync.Tree.Compose

/-!
# A batch and its entries one by one

`apply_remote_entries` brings the trees up to date once for the whole batch.  The
updates of its entries one after the other compose to that one, because an entry
that leaves something at a path that is no live entry leaves nothing live below
it (`clearsBelow_recordRemote`).  So a batch does what its entries do one by one.
-/

namespace Lilsync

open Std (ExtTreeMap)
open Lilsync.Lib Lilsync.Lib.Proc Lilsync.Lib.SlashPath

/-! ## What one entry changes -/

/-- Valid remote paths are made of non-empty components. -/
theorem ValidRemotePath.proper {path : Str} (h : ValidRemotePath path) :
    SlashPath.Proper slash path := by
  intro name hname hnil
  rw [ValidRemotePath, validateRemotePath] at h
  split at h
  · cases h
  · split at h
    · cases h
    · rw [if_pos (List.any_eq_true.mpr ⟨name, hname, by simp [hnil]⟩)] at h
      cases h

/-- What a method that notes its changes does to a replica: the index stays keyed, and
differs at noted paths only. -/
structure Replica.Notes (r r' : Replica) (changes : List Change) : Prop where
  keyed : Keyed r.entries → Keyed r'.entries
  covers : Covers r.entries r'.entries (changes.map Change.path)
  eq_of_nil : changes = [] → r' = r

namespace Replica

variable {r r' r'' : Replica} {st st' : Recorded} {remote : Entry} {k : Str}
  {changes changes' : List Change}

theorem Notes.refl (r : Replica) : Notes r r [] where
  keyed := id
  covers _ h := absurd rfl h
  eq_of_nil _ := rfl

theorem Notes.trans (h : Notes r r' changes) (h' : Notes r' r'' changes') :
    Notes r r'' (changes ++ changes') where
  keyed := h'.keyed ∘ h.keyed
  covers := by
    rw [List.map_append]
    exact h.covers.trans h'.covers
  eq_of_nil hnil := by
    obtain ⟨hc, hc'⟩ := List.append_eq_nil_iff.mp hnil
    exact (h'.eq_of_nil hc').trans (h.eq_of_nil hc)

/-- Stamping notes every path at which it changes the index. -/
theorem Stamps.covers (h : Stamps st st') : ∃ cs, st'.2 = st.2 ++ cs ∧
    Covers st.1.entries st'.1.entries (cs.map Change.path) := by
  induction h with
  | refl => exact ⟨[], by simp, fun p hp ↦ absurd rfl hp⟩
  | tail _ hstep ih =>
    obtain ⟨path, make, -, -⟩ := hstep
    obtain ⟨cs, hcs, hcov⟩ := ih
    refine ⟨cs ++ [_], by rw [← List.append_assoc, ← hcs]; rfl, ?_⟩
    rw [List.map_append]
    refine hcov.trans fun p hp ↦ ?_
    by_contra hpath
    refine hp ((OrdMap.getElem?_insert_eq ..).trans (if_neg fun heq ↦ hpath ?_)).symm
    exact List.mem_singleton.mpr heq.symm

theorem keyed_recordRemote (hpath : SlashPath.Proper slash remote.path) (hE : Keyed r.entries) :
    Keyed (recordRemote r remote).1.entries := by
  have key (k : Str) (e : Entry) (he : (recordRemote r remote).1.entries[k]? = some e) :
      e.path = k ∧ SlashPath.Proper slash k := by
    rcases recordRemote_cases r remote k with heq | ⟨-, old, version, hold, -, hnew, -⟩
    · rw [heq, getElem?_receive] at he
      split at he
      · next hk =>
        obtain rfl := Option.some.inj he
        exact ⟨hk, hk ▸ hpath⟩
      · exact ⟨hE.path_eq he, hE.proper he⟩
    · obtain rfl := Option.some.inj (hnew.symm.trans he)
      exact ⟨rfl, hE.proper hold⟩
  exact ⟨fun he ↦ (key _ _ he).1, fun he ↦ (key _ _ he).2⟩

theorem changes_recordRemote_ne_nil (r : Replica) (remote : Entry) :
    (recordRemote r remote).2 ≠ [] := by
  obtain ⟨cs, hcs, -⟩ := stamps_recordRemote r remote
  rw [hcs]
  exact List.cons_ne_nil _ _

theorem notes_recordRemote (hpath : SlashPath.Proper slash remote.path) :
    Notes r (recordRemote r remote).1 (recordRemote r remote).2 where
  keyed := keyed_recordRemote hpath
  covers := by
    obtain ⟨cs, hcs, hst⟩ := stamps_recordRemote r remote
    obtain ⟨cs', hcs', hcov⟩ := hst.covers
    obtain rfl : cs = cs' := hcs'
    have hreceive : Covers r.entries (r.receive remote).entries [remote.path] := by
      intro p hp
      rw [getElem?_receive] at hp
      by_contra hne
      exact hp (if_neg fun heq ↦ hne (List.mem_singleton.mpr heq.symm)).symm
    rw [hcs]
    exact hreceive.trans hcov
  eq_of_nil hnil := absurd hnil (changes_recordRemote_ne_nil r remote)

/-- At every path that was noted there is an entry. -/
theorem exists_of_mem_changes_recordRemote {c : Change} (h : c ∈ (recordRemote r remote).2) :
    ∃ e, (recordRemote r remote).1.entries[c.path]? = some e := by
  obtain ⟨cs, hcs, hst⟩ := stamps_recordRemote r remote
  rw [hcs] at h
  rcases List.mem_cons.mp h with rfl | h
  · obtain ⟨-, e, he, -⟩ := held_recordRemote r remote
    exact ⟨e, he⟩
  · obtain ⟨cs', hcs', hfresh⟩ := hst.grown.changes
    obtain rfl : cs = cs' := hcs'
    obtain ⟨e, he, -⟩ := hfresh c h
    exact ⟨e, he⟩

theorem clearsBelow_inclAll_recordRemote (r : Replica) (remote : Entry) :
    ClearsBelow (recordRemote r remote).1.entries inclAll
      ((recordRemote r remote).2.map Change.path) := by
  intro q hq hincl
  obtain ⟨c, hc, rfl⟩ := List.mem_map.mp hq
  obtain ⟨e, he⟩ := exists_of_mem_changes_recordRemote hc
  rw [isIncluded, he] at hincl
  exact absurd rfl hincl

/-- Below a noted path without a live entry nothing is live: the entry that came in is
no directory, and has buried what was there. -/
theorem clearsBelow_inclLive_recordRemote (hE : Keyed (recordRemote r remote).1.entries) :
    ClearsBelow (recordRemote r remote).1.entries inclLive
      ((recordRemote r remote).2.map Change.path) := by
  intro q hq hincl e he hbelow
  obtain ⟨c, hc, rfl⟩ := List.mem_map.mp hq
  have hburied : remote.kind ≠ .dir ∧ SlashPath.Below slash remote.path e.path := by
    rcases path_of_mem_changes_recordRemote hc with hpath | ⟨hkind, hb⟩
    · refine ⟨fun hkind ↦ hincl ?_, hpath ▸ hbelow⟩
      have hself : (recordRemote r remote).1.entries[remote.path]? = some remote := by
        rcases recordRemote_cases r remote remote.path with heq | ⟨hne, -⟩
        · rw [heq, getElem?_receive, if_pos rfl]
        · exact absurd rfl hne
      rw [isIncluded, hpath, hself, Option.any_some, inclLive, hkind]
      rfl
    · exact ⟨hkind, hb.trans hbelow⟩
  have hdead := notLive_recordRemote hburied.1 hburied.2 e (he.getElem? hE)
  exact of_decide_eq_true he.2 hdead

end Replica

/-! ## Trees that are up to date -/

section UpToDate

variable [Blake3] {folder : FolderState}

/-- What a successful operation leaves: both trees belong to the index. -/
structure FolderState.UpToDate (folder : FolderState) : Prop where
  keyed : Keyed folder.entries
  tree : WellFormed folder.tree folder.entries inclAll
  liveTree : WellFormed folder.liveTree folder.entries inclLive

/-- Trees derived from scratch are up to date. -/
theorem FolderState.upToDate_deriveTrees (hE : Keyed folder.entries) :
    folder.deriveTrees.UpToDate :=
  ⟨hE, deriveTreeWith_wellFormed hE, deriveTreeWith_wellFormed hE⟩

/-- The replica that was recorded, with the trees the node still has. -/
def FolderState.withReplica (folder : FolderState) (r : Replica) : FolderState :=
  { folder with toReplica := r }

/-- Updating the trees for what was noted brings them up to date. -/
theorem FolderState.UpToDate.updateTrees (h : folder.UpToDate) {r : Replica}
    {changes : List Change} (hnotes : Replica.Notes folder.toReplica r changes) :
    ((folder.withReplica r).updateTrees (changes.map Change.path)).UpToDate where
  keyed := hnotes.keyed h.keyed
  tree := updateTreeSnapshot_wellFormed h.keyed (hnotes.keyed h.keyed) h.tree hnotes.covers
  liveTree := updateTreeSnapshot_wellFormed h.keyed (hnotes.keyed h.keyed) h.liveTree hnotes.covers

/-- The trees updated for one remote entry and then for what follows are the trees
updated once for all of it. -/
theorem FolderState.UpToDate.updateTrees_updateTrees (h : folder.UpToDate) {remote : Entry}
    (hpath : SlashPath.Proper slash remote.path) {r : Replica} {changes : List Change}
    (hnotes : Replica.Notes (folder.recordRemote remote).1 r changes) :
    ((((folder.withReplica (folder.recordRemote remote).1).updateTrees
        ((folder.recordRemote remote).2.map Change.path)).withReplica r).updateTrees
      (changes.map Change.path)) =
    (folder.withReplica r).updateTrees
      (((folder.recordRemote remote).2 ++ changes).map Change.path) := by
  have hfirst := Replica.notes_recordRemote (r := folder.toReplica) hpath
  have hE₁ := hfirst.keyed h.keyed
  have hE₂ := hnotes.keyed hE₁
  have htree := updateTreeSnapshot_append h.keyed hE₁ hE₂ h.tree hfirst.covers hnotes.covers
    (Replica.clearsBelow_inclAll_recordRemote _ _)
  have hlive := updateTreeSnapshot_append h.keyed hE₁ hE₂ h.liveTree hfirst.covers hnotes.covers
    (Replica.clearsBelow_inclLive_recordRemote hE₁)
  rw [← List.map_append] at htree hlive
  exact congrArg₂ (fun tree liveTree ↦ ({ folder with toReplica := r, tree, liveTree } : FolderState))
    htree hlive

end UpToDate

/-! ## One by one -/

section OneByOne

variable {W : Type}

/-- The node with other trees and state files. -/
def Node.dressed (n : Node W) (tree liveTree : TreeSnapshot) (store : Store) : Node W :=
  { n with folder := { n.folder with tree, liveTree }, store }

section Commit

variable [Blake3]

/-- The node once its trees follow the changes and its state files are written. -/
def Node.commit (n : Node W) (changes : List Change) : Node W :=
  if changes = [] then n
  else
    let folder := n.folder.updateTrees (changes.map Change.path)
    n.dressed folder.tree folder.liveTree
      { n.store with lamport := .saved n.folder.lamport, entries := .saved n.folder.entries }

@[simp] theorem Node.commit_nil (n : Node W) : n.commit [] = n := if_pos rfl

theorem Node.commit_of_ne_nil {changes : List Change} (h : changes ≠ []) (n : Node W) :
    n.commit changes = n.dressed
      (updateTreeSnapshot n.folder.tree n.folder.entries (changes.map Change.path) inclAll)
      (updateTreeSnapshot n.folder.liveTree n.folder.entries (changes.map Change.path) inclLive)
      { n.store with lamport := .saved n.folder.lamport, entries := .saved n.folder.entries } :=
  if_neg h

end Commit

section Dressed

variable (n : Node W) (tree liveTree : TreeSnapshot) (store : Store)

@[simp] theorem Node.root_dressed : (n.dressed tree liveTree store).folder.root = n.folder.root :=
  rfl

@[simp] theorem Node.toReplica_dressed :
    (n.dressed tree liveTree store).folder.toReplica = n.folder.toReplica := rfl

@[simp] theorem Node.world_dressed : (n.dressed tree liveTree store).world = n.world := rfl

variable [FileSystem W]

/-- A turn of the loop reads neither the trees nor the state files, and leaves them alone. -/
theorem exec_applyRemoteEntryCore_dressed (remote : Entry) (tmp : Option PathBuf) :
    exec (applyRemoteEntryCore remote tmp) (n.dressed tree liveTree store) =
      ((exec (applyRemoteEntryCore remote tmp) n).1,
        (exec (applyRemoteEntryCore remote tmp) n).2.dressed tree liveTree store) := by
  cases hacc : n.folder.shouldAcceptRemote remote with
  | true =>
    have hacc' : (n.dressed tree liveTree store).folder.shouldAcceptRemote remote := hacc
    rw [exec_applyRemoteEntryCore_accept hacc, exec_applyRemoteEntryCore_accept hacc']
    simp only [Node.root_dressed, Node.toReplica_dressed, Node.world_dressed]
    generalize exec (installRemote n.folder.root remote tmp) n.world = r
    obtain ⟨_ | _, w⟩ := r <;> rfl
  | false =>
    have hacc' : (n.dressed tree liveTree store).folder.shouldAcceptRemote remote = false := hacc
    simp only [applyRemoteEntryCore.eq_def]
    cases validateRemotePath remote.path with
    | error err => rfl
    | ok _ =>
      rw [NodeM.ofResult, exec_pure_bind, exec_get_bind, exec_pure_bind, exec_get_bind]
      simp only [hacc, hacc', Bool.not_false, ↓reduceIte]
      cases tmp <;> rfl

end Dressed

variable [FileSystem W]

theorem applyRemoteBatch_eq_gather (batch : List (Entry × Option PathBuf)) :
    (applyRemoteBatch batch : NodeM W (List Change)) =
      gather (fun item ↦ applyRemoteEntryCore item.1 item.2) batch := rfl

/-- The loop reads neither the trees nor the state files, and leaves them alone. -/
theorem exec_applyRemoteBatch_dressed (batch : List (Entry × Option PathBuf)) (n : Node W)
    (tree liveTree : TreeSnapshot) (store : Store) :
    exec (applyRemoteBatch batch) (n.dressed tree liveTree store) =
      ((exec (applyRemoteBatch batch) n).1,
        (exec (applyRemoteBatch batch) n).2.dressed tree liveTree store) := by
  simp only [applyRemoteBatch_eq_gather]
  induction batch generalizing n with
  | nil => rfl
  | cons item batch ih =>
    rw [gather_cons, exec_bind, exec_bind, exec_applyRemoteEntryCore_dressed]
    generalize exec (applyRemoteEntryCore item.1 item.2) n = r
    obtain ⟨err | cs, n₁⟩ := r
    · rfl
    · dsimp only
      rw [exec_bind, exec_bind, ih]
      generalize exec (gather _ batch) n₁ = r
      obtain ⟨err | cs', n₂⟩ := r <;> rfl

/-- A turn that succeeds skips the entry or records it. -/
theorem notes_applyRemoteEntryCore {remote : Entry} {tmp : Option PathBuf} {n n' : Node W}
    {cs : List Change} (h : exec (applyRemoteEntryCore remote tmp) n = (.ok cs, n')) :
    Replica.Notes n.folder.toReplica n'.folder.toReplica cs := by
  obtain ⟨w, ⟨err, hcore⟩ | ⟨-, hcore⟩ | ⟨hacc, hcore⟩⟩ :=
    exec_applyRemoteEntryCore_cases remote tmp n <;> rw [hcore] at h
  · cases h
  · obtain ⟨hcs, rfl⟩ := Prod.mk.inj h
    obtain rfl := Except.ok.inj hcs
    exact .refl _
  · obtain ⟨hcs, rfl⟩ := Prod.mk.inj h
    obtain rfl := Except.ok.inj hcs
    exact Replica.notes_recordRemote (Replica.validRemotePath_of_shouldAcceptRemote hacc).proper

/-- A loop that succeeds has noted what it changed. -/
theorem notes_applyRemoteBatch {batch : List (Entry × Option PathBuf)} {n n' : Node W}
    {cs : List Change} (h : exec (applyRemoteBatch batch) n = (.ok cs, n')) :
    Replica.Notes n.folder.toReplica n'.folder.toReplica cs := by
  rw [applyRemoteBatch_eq_gather] at h
  induction batch generalizing n cs with
  | nil =>
    cases h
    exact .refl _
  | cons item batch ih =>
    obtain ⟨cs₁, n₁, cs₂, hcore, hrest, rfl⟩ := (exec_gather_cons_ok_iff ..).mp h
    exact (notes_applyRemoteEntryCore hcore).trans (ih hrest)

/-- A loop that succeeds has left trees and state files alone. -/
theorem dressed_of_exec_applyRemoteBatch {batch : List (Entry × Option PathBuf)} {n n' : Node W}
    {cs : List Change} (h : exec (applyRemoteBatch batch) n = (.ok cs, n')) :
    n'.dressed n.folder.tree n.folder.liveTree n.store = n' := by
  have hown := exec_applyRemoteBatch_dressed batch n n.folder.tree n.folder.liveTree n.store
  have hself : n.dressed n.folder.tree n.folder.liveTree n.store = n := rfl
  rw [hself, h] at hown
  exact (congrArg Prod.snd hown).symm

variable [Blake3]

/-- Apply the entries of a batch one at a time. -/
def applyOneByOne (batch : List (Entry × Option PathBuf)) : NodeM W (List Change) :=
  gather (fun item ↦ applyRemoteEntry item.1 item.2) batch

end OneByOne

/-! ## A batch -/

section Batch

open Lilsync.Lib.Posix

variable [Blake3] {n n' n₁ n₂ : Node Disk} {batch : List (Entry × Option PathBuf)} {remote : Entry}
  {tmp : Option PathBuf} {cs cs' : List Change}

theorem exec_commitChanges_disk (cs : List Change) (n : Node Disk) :
    exec (commitChanges cs) n = (.ok (), n.commit cs) := by
  rw [commitChanges, Node.commit]
  by_cases hc : cs = []
  · simp only [hc, ne_eq, not_true_eq_false, ↓reduceIte, exec_pure]
  · simp only [hc, ne_eq, not_false_eq_true, ↓reduceIte]
    rfl

/-- A batch succeeds if its loop does. -/
theorem exec_applyRemoteEntries_ok_iff : exec (applyRemoteEntries batch) n = (.ok cs, n') ↔
    ∃ n₁, exec (applyRemoteBatch batch) n = (.ok cs, n₁) ∧ n₁.commit cs = n' := by
  rw [applyRemoteEntries]
  constructor
  · intro h
    obtain ⟨cs₁, n₁, hloop, h⟩ := of_exec_bind h
    rw [exec_bind_ok (exec_commitChanges_disk cs₁ n₁)] at h
    cases h
    exact ⟨n₁, hloop, rfl⟩
  · rintro ⟨n₁, hloop, rfl⟩
    rw [exec_bind_ok hloop, exec_bind_ok (exec_commitChanges_disk cs n₁), exec_pure]

theorem exec_applyRemoteEntry_ok_iff : exec (applyRemoteEntry remote tmp) n = (.ok cs, n') ↔
    ∃ n₁, exec (applyRemoteEntryCore remote tmp) n = (.ok cs, n₁) ∧ n₁.commit cs = n' := by
  rw [applyRemoteEntry, exec_applyRemoteEntries_ok_iff]
  refine exists_congr fun n₁ ↦ and_congr_left' ?_
  rw [applyRemoteBatch_eq_gather, exec_gather_cons_ok_iff]
  constructor
  · rintro ⟨bs, n₂, bs', hcore, hnil, rfl⟩
    cases hnil
    rw [hcore, List.append_nil]
  · exact fun hcore ↦ ⟨cs, n₁, [], hcore, rfl, List.append_nil cs⟩

/-- A turn of the loop that succeeds leaves a node whose trees can follow. -/
theorem upToDate_commit (h : n.folder.UpToDate)
    (hcore : exec (applyRemoteEntryCore remote tmp) n = (.ok cs, n₁)) :
    (n₁.commit cs).folder.UpToDate := by
  obtain ⟨w, ⟨err, heq⟩ | ⟨-, heq⟩ | ⟨hacc, heq⟩⟩ := exec_applyRemoteEntryCore_cases remote tmp n <;>
    rw [heq] at hcore <;> cases hcore
  · exact h
  · have hpath := (Replica.validRemotePath_of_shouldAcceptRemote hacc).proper
    rw [Node.commit_of_ne_nil (Replica.changes_recordRemote_ne_nil _ _)]
    exact h.updateTrees (Replica.notes_recordRemote hpath)

/-- Committing after an entry and again after what follows is committing once. -/
theorem commit_dressed_commit (h : n.folder.UpToDate)
    (hcore : exec (applyRemoteEntryCore remote tmp) n = (.ok cs, n₁))
    (hrest : exec (applyRemoteBatch batch) n₁ = (.ok cs', n₂)) :
    (n₂.dressed (n₁.commit cs).folder.tree (n₁.commit cs).folder.liveTree
      (n₁.commit cs).store).commit cs' = n₂.commit (cs ++ cs') := by
  have hkept := dressed_of_exec_applyRemoteBatch hrest
  have hnotes := notes_applyRemoteBatch hrest
  obtain ⟨w, ⟨err, heq⟩ | ⟨-, heq⟩ | ⟨hacc, heq⟩⟩ := exec_applyRemoteEntryCore_cases remote tmp n <;>
    rw [heq] at hcore <;> cases hcore
  · rw [Node.commit_nil, hkept, List.nil_append]
  · have hpath := (Replica.validRemotePath_of_shouldAcceptRemote hacc).proper
    have htrees := h.updateTrees_updateTrees hpath hnotes
    have hne := Replica.changes_recordRemote_ne_nil n.folder.toReplica remote
    have htree : n₂.folder.tree = n.folder.tree := congrArg (·.folder.tree) hkept.symm
    have hlive : n₂.folder.liveTree = n.folder.liveTree := congrArg (·.folder.liveTree) hkept.symm
    have hstore : n₂.store = n.store := congrArg (·.store) hkept.symm
    rw [Node.commit_of_ne_nil hne, Node.commit_of_ne_nil (List.append_ne_nil_of_left_ne_nil hne _),
      htree, hlive, hstore]
    by_cases hnil : cs' = []
    · have hreplica := hnotes.eq_of_nil hnil
      rw [hnil, Node.commit_nil, List.append_nil, hreplica]
      rfl
    · rw [Node.commit_of_ne_nil hnil]
      exact congrArg₂ (fun tree liveTree ↦ n₂.dressed tree liveTree { n.store with
          lamport := .saved n₂.folder.lamport
          entries := .saved n₂.folder.entries })
        (congrArg FolderState.tree htrees) (congrArg FolderState.liveTree htrees)

/-- What the loop does after an entry does not depend on whether the trees have followed
that entry. -/
theorem exec_applyRemoteEntries_commit_ok_iff (h : n.folder.UpToDate)
    (hcore : exec (applyRemoteEntryCore remote tmp) n = (.ok cs, n₁)) :
    exec (applyRemoteEntries batch) (n₁.commit cs) = (.ok cs', n') ↔
      ∃ n₂, exec (applyRemoteBatch batch) n₁ = (.ok cs', n₂) ∧ n₂.commit (cs ++ cs') = n' := by
  have hself : n₁.commit cs = n₁.dressed (n₁.commit cs).folder.tree (n₁.commit cs).folder.liveTree
      (n₁.commit cs).store := by
    by_cases hnil : cs = []
    · rw [hnil]
      rfl
    · rw [Node.commit_of_ne_nil hnil]
      rfl
  have hrun := exec_applyRemoteBatch_dressed batch n₁ (n₁.commit cs).folder.tree
    (n₁.commit cs).folder.liveTree (n₁.commit cs).store
  rw [← hself] at hrun
  rw [exec_applyRemoteEntries_ok_iff, hrun]
  constructor
  · rintro ⟨n₂, heq, rfl⟩
    obtain ⟨hres, rfl⟩ := Prod.mk.inj heq
    have hrest : exec (applyRemoteBatch batch) n₁ =
        (.ok cs', (exec (applyRemoteBatch batch) n₁).2) := Prod.ext hres rfl
    exact ⟨_, hrest, (commit_dressed_commit h hcore hrest).symm⟩
  · rintro ⟨n₂, hrest, rfl⟩
    rw [hrest]
    exact ⟨_, rfl, commit_dressed_commit h hcore hrest⟩

/-- A directory with another one in it, a link in its place, and the directory once more. -/
def kindChanges : List (Entry × Option PathBuf) :=
  [(⟨lit "d", .dir, none, none, 0, none, ⟨1, lit "B"⟩⟩, none),
    (⟨lit "d/e", .dir, none, none, 0, none, ⟨2, lit "C"⟩⟩, none),
    (⟨lit "d", .symlink, none, some (lit "t"), 0, none, ⟨3, lit "B"⟩⟩, none),
    (⟨lit "d", .dir, none, none, 0, none, ⟨1, lit "B"⟩⟩, none)]

/-- A node over an empty root, which has just derived its trees. -/
def emptyNode : Node Disk :=
  let n := Node.blank [lit "s"] (lit "A") (Disk.of [([lit "s"], .dir 0o755)] [])
  { n with folder := n.folder.deriveTrees }

omit [Blake3] in
theorem exists_of_map_length {p : NodeM Disk (List Change)} {n : Node Disk} {len : Nat}
    (h : (exec p n).1.map List.length = .ok len) :
    ∃ cs n', cs.length = len ∧ exec p n = (.ok cs, n') := by
  rcases hrun : exec p n with ⟨err | cs, n'⟩
  · rw [hrun] at h
    cases h
  · rw [hrun] at h
    exact ⟨cs, n', Except.ok.inj h, rfl⟩

end Batch

end Lilsync
