import Lilsync.Daemon.Clock
import Lilsync.State.Sound

/-!
# Root reports that arrive in any order

A node announces its roots and its clock, each announcement is a task of its own,
and a peer keeps the report with the greatest clock, the later one of equals.
So the peer ends up with the last report, whatever the order of arrival, as long
as the clock rises whenever a root moves.  Most methods see to that.  Entries
from remote that are not above the clock do not, nor does a start that prunes the
index it has loaded, nor a rescan that finds nothing but brings stale trees up to
date.
-/

namespace Lilsync

open Std (ExtTreeMap)
open Lilsync.Lib Lilsync.Lib.Proc

/-! ## Arrivals -/

namespace RootReports

/-- The reports that arrive at a peer, one after the other, with their origins. -/
def receive (reports : RootReports) (arrivals : List (Str × RootReport)) : RootReports :=
  arrivals.foldl (fun reports r ↦ reports.update r.1 r.2) reports

/-- The reports of one origin among those that arrive. -/
def of (origin : Str) (arrivals : List (Str × RootReport)) : List RootReport :=
  (arrivals.filter fun r ↦ r.1 = origin).map Prod.snd

variable {reports : RootReports} {origin origin' : Str} {report last : RootReport}

theorem getElem?_update_of_ne (h : origin' ≠ origin) :
    (reports.update origin' report)[origin]? = reports[origin]? := by
  rw [update]
  split
  · rw [OrdMap.getElem?_insert_eq, if_neg h]
  · rfl

/-- A report replaces what is not newer. -/
theorem getElem?_update_self : (reports.update origin report)[origin]? =
    if reports[origin]?.all fun old ↦ old.lamport ≤ report.lamport then some report
    else reports[origin]? := by
  rw [update]
  split
  · rw [OrdMap.getElem?_insert_eq, if_pos rfl]
  · rfl

/-- Once the report that is above all others has arrived, it stays. -/
theorem getElem?_receive_of_max {arrivals : List (Str × RootReport)}
    (hmax : ∀ a ∈ of origin arrivals, a = last ∨ a.lamport < last.lamport)
    (hold : ∀ a ∈ reports[origin]?, a = last ∨ a.lamport < last.lamport)
    (hlast : last ∈ of origin arrivals ∨ reports[origin]? = some last) :
    (reports.receive arrivals)[origin]? = some last := by
  induction arrivals generalizing reports with
  | nil => exact hlast.resolve_left List.not_mem_nil
  | cons r arrivals ih =>
    obtain ⟨origin', report⟩ := r
    by_cases ho : origin' = origin
    · subst ho
      have hof : of origin' ((origin', report) :: arrivals) = report :: of origin' arrivals := by
        simp [of]
      rw [hof, List.forall_mem_cons] at hmax
      rw [hof, List.mem_cons] at hlast
      refine ih hmax.2 ?_ ?_ <;> rw [getElem?_update_self]
      · split
        · intro a ha
          obtain rfl := Option.some.inj ha
          exact hmax.1
        · exact hold
      · by_cases hreport : last = report
        · subst hreport
          refine .inr (if_pos ?_)
          rw [Option.all_eq_true]
          intro a ha
          rcases hold a ha with rfl | hlt
          · simp
          · simp [hlt.le]
        · refine hlast.imp (fun h ↦ h.resolve_left hreport) fun h ↦ ?_
          have hlt := hmax.1.resolve_left (Ne.symm hreport)
          rw [h, if_neg]
          simp [hlt]
    · have hof : of origin ((origin', report) :: arrivals) = of origin arrivals := by
        simp [of, ho]
      rw [hof] at hmax hlast
      exact ih hmax (by rwa [getElem?_update_of_ne ho]) (by rwa [getElem?_update_of_ne ho])

theorem of_map (announced : List RootReport) :
    of origin (announced.map fun report ↦ (origin, report)) = announced := by
  simp [of, List.filter_map, Function.comp_def]

theorem getElem?_receive_of_nil {arrivals : List (Str × RootReport)}
    (h : of origin arrivals = []) : (reports.receive arrivals)[origin]? = reports[origin]? := by
  induction arrivals generalizing reports with
  | nil => rfl
  | cons r arrivals ih =>
    obtain ⟨origin', report⟩ := r
    by_cases ho : origin' = origin
    · simp [of, ho] at h
    · have hof : of origin arrivals = [] := by simpa [of, ho] using h
      exact (ih hof).trans (getElem?_update_of_ne ho)

end RootReports

/-! ## Methods that raise the clock -/

section Methods

variable {W : Type} [Blake3]

/-- `StateSnapshot::from_state`: what a node announces. -/
def FolderState.report (folder : FolderState) : RootReport :=
  ⟨folder.tree.rootHash, folder.liveTree.rootHash, folder.lamport⟩

/-- The roots are those of the index. -/
def FolderState.TreesCurrent (folder : FolderState) : Prop :=
  folder.deriveTrees.report = folder.report

omit [Blake3] in
/-- What is announced is the same, or the clock has risen. -/
def FolderState.Advances (folder folder' : FolderState) : Prop :=
  folder'.report = folder.report ∨ folder.lamport < folder'.lamport

omit [Blake3] in
theorem mem_keys_of_not_notLive {entries : Index} {k : Str}
    (h : ¬ Replica.NotLive entries k) : k ∈ entries.keys := by
  rw [ExtTreeMap.mem_keys]
  by_contra hmem
  refine h fun e he ↦ ?_
  rw [ExtTreeMap.getElem?_eq_none hmem] at he
  cases he

omit [Blake3] in
/-- A survey that is not settled finds something to record. -/
theorem Survey.adds_record {s : Survey} {st : Recorded} (hp : s.Placed)
    (h : ¬ s.Settled st.1.entries) : Replica.Adds st (s.record st) := by
  rw [Survey.record]
  by_cases hlive : ∀ (k : Str) (e : Entry), s.entries[k]? = some e →
      Replica.Matches st.1.entries k e
  · rw [(Sight.recordLive_eq_self_or_adds hp st).1 hlive]
    refine (Replica.foldl_tombstonePath _ st).2 ?_
    by_contra hnone
    refine h ⟨hlive, fun k hseen hignore ↦ ?_⟩
    by_contra hk
    exact hnone ⟨k, List.mem_filter.mpr ⟨mem_keys_of_not_notLive hk,
      by simp only [hseen, hignore]; rfl⟩, hk⟩
  · refine ((Sight.recordLive_eq_self_or_adds hp st).2 ?_).trans_stamps
      (Survey.stamps_recordDeleted _ _ _)
    push Not at hlive
    exact hlive

variable [FileSystem W]

open FileSystem Replica

/-- A rescan raises the clock, or the trees are those of the index already. -/
def RescanRaises (n : Node W) (v : W × ScanCache) : Prop :=
  ∀ s v', exec (survey n.folder.root) v = (.ok s, v') → s.Settled n.folder.entries →
    n.folder.TreesCurrent

theorem advances_rescan {n : Node W} (h : RescanRaises n n.view) :
    n.folder.Advances (exec rescan n).2.folder := by
  have hspec := exec_rescan n
  match hsurvey : exec (survey n.folder.root) n.view with
  | (.error err, v) =>
    rw [hsurvey] at hspec
    rw [hspec]
    exact .inl rfl
  | (.ok s, v) =>
    rw [hsurvey] at hspec
    obtain ⟨w, files, cache, hexec⟩ := hspec
    have hplaced : s.Placed := Survey.yields_placed _ _ _ (congrArg Prod.fst hsurvey)
    rw [hexec]
    by_cases hset : s.Settled n.folder.entries
    · rw [Survey.record_eq_self hplaced hset]
      exact .inl (h s v hsurvey hset)
    · exact .inr ((Survey.stamps_record hplaced (n.folder.toReplica, [])).lamport_lt_of_adds
        (Survey.adds_record hplaced hset))

theorem advances_applyPaths {n : Node W} {absPaths : List PathBuf}
    (h : ∀ v, fallbackView n absPaths = some v → RescanRaises n v) :
    n.folder.Advances (exec (applyPaths absPaths) n).2.folder := by
  have hplaced : ∀ rs ∈ eventSights n absPaths, rs.2.Placed rs.1 :=
    fun _ ↦ placed_of_mem_eventSights
  have hst := stamps_recordAll hplaced (n.folder.toReplica, [])
  obtain ⟨v, ⟨-, hfall, hrescan⟩ | ⟨err, herr⟩ | hok⟩ := exec_applyPaths absPaths n
  · rw [hrescan]
    exact advances_rescan (show RescanRaises (n.withView v) v from h v hfall)
  · rw [herr]
    rcases hst.eq_or_lt with heq | hlt
    · rw [heq]
      exact .inl rfl
    · exact .inr hlt
  · rw [hok]
    obtain ⟨w, files, dirty, hcache⟩ := exec_saveScanCache ((n.withReplica
      (recordAll (eventSights n absPaths) (n.folder.toReplica, [])).1).withView v)
    rw [exec_bind_ok hcache]
    rcases hst.eq_or_lt with heq | hlt
    · rw [heq]
      exact .inl rfl
    · refine .inr (lt_of_lt_of_eq hlt ?_)
      generalize hn₁ : (Node.mk _ _ _ : Node W) = n₁
      have hlamport : n₁.folder.lamport =
          (recordAll (eventSights n absPaths) (n.folder.toReplica, [])).1.lamport := by
        rw [← hn₁]
        rfl
      have hcommit := toReplica_commitChanges
        (recordAll (eventSights n absPaths) (n.folder.toReplica, [])).2 n₁
      rw [exec_bind]
      generalize exec (commitChanges _) n₁ = r at hcommit
      obtain ⟨_ | _, n₂⟩ := r
      · exact hlamport.symm.trans (congrArg Replica.lamport hcommit).symm
      · exact hlamport.symm.trans (congrArg Replica.lamport hcommit).symm

/-- The element of the batch is accepted at its turn, by the node as it is then. -/
def TurnsTo (n : Node W) (batch : List (Entry × Option PathBuf)) (remote : Entry)
    (n₁ : Node W) : Prop :=
  ∃ pre tmp post cs, batch = pre ++ (remote, tmp) :: post ∧
    exec (applyRemoteBatch pre) n = (.ok cs, n₁) ∧ n₁.folder.shouldAcceptRemote remote

/-- If the batch has an entry that is accepted, it has one that is above the clock at its
turn, or that buries something then. -/
def RemoteRaises (n : Node W) (batch : List (Entry × Option PathBuf)) : Prop :=
  (∃ remote n₁, TurnsTo n batch remote n₁) → ∃ remote n₁, TurnsTo n batch remote n₁ ∧
    (n₁.folder.lamport < remote.version.lamport ∨ Buries n₁.folder.toReplica remote)

omit [FileSystem W] [Blake3] in
/-- An entry that buries something issues a version. -/
theorem adds_of_buries {r : Replica} {remote : Entry} (h : Buries r remote) :
    Adds (r.receive remote, []) (tombstoneChildDescendants remote.path (r.receive remote, [])) := by
  obtain ⟨-, k, hbelow, hlive⟩ := h
  have hne : remote.path ≠ k := fun heq ↦ SlashPath.Below.irrefl (heq ▸ hbelow)
  have hlive' : ¬ NotLive (r.receive remote).entries k := by
    rwa [NotLive, getElem?_receive, if_neg hne]
  exact (foldl_tombstonePath _ _).2 ⟨k, List.mem_filter.mpr ⟨mem_keys_of_not_notLive hlive',
    decide_eq_true hbelow⟩, hlive'⟩

omit [FileSystem W] [Blake3] in
/-- A remote entry that is above the clock or buries something raises the clock. -/
theorem lamport_lt_recordRemote {r : Replica} {remote : Entry}
    (h : r.lamport < remote.version.lamport ∨ Buries r remote) :
    r.lamport < (recordRemote r remote).1.lamport := by
  rcases h with hlt | hbury
  · obtain ⟨cs, -, hst⟩ := stamps_recordRemote r remote
    exact (hlt.trans_le (Nat.le_max_right ..)).trans_le hst.grown.lamport_le
  · have hrecord : (recordRemote r remote).1 =
        (tombstoneChildDescendants remote.path (r.receive remote, [])).1 := by
      rw [recordRemote]
      dsimp only
      rw [if_pos hbury.1]
      rfl
    rw [hrecord]
    exact (Nat.le_max_left r.lamport remote.version.lamport).trans_lt
      ((stamps_tombstoneChildDescendants _ _).lamport_lt_of_adds (adds_of_buries hbury))

omit [Blake3] in
/-- A batch that gets through takes in each entry it accepts at its turn. -/
theorem TurnsTo.lamport_le {n n₁ n' : Node W} {batch : List (Entry × Option PathBuf)}
    {remote : Entry} {cs' : List Change} (h : TurnsTo n batch remote n₁)
    (hrun : exec (applyRemoteBatch batch) n = (.ok cs', n')) :
    n.folder.lamport ≤ n₁.folder.lamport ∧
      (recordRemote n₁.folder.toReplica remote).1.lamport ≤ n'.folder.lamport := by
  obtain ⟨pre, tmp, post, cs, rfl, hpre, hacc⟩ := h
  rw [applyRemoteBatch_eq] at hpre hrun
  refine ⟨(issues_foldlM_applyRemoteItem hpre).2.1.lamport_le, ?_⟩
  rw [List.foldlM_append, exec_bind_ok hpre, List.foldlM_cons] at hrun
  obtain ⟨cs₂, n₂, hitem, hpost⟩ := of_exec_bind hrun
  refine le_of_eq_of_le ?_ (issues_foldlM_applyRemoteItem hpost).2.1.lamport_le
  rw [exec_applyRemoteItem, exec_applyRemoteEntryCore_accept hacc] at hitem
  generalize exec (installRemote n₁.folder.root remote tmp) n₁.world = r at hitem
  obtain ⟨_ | _, w⟩ := r
  · cases hitem
  · obtain ⟨-, rfl⟩ := Prod.mk.inj hitem
    rfl

omit [Blake3] in
/-- A loop that notes a change has accepted an entry at its turn. -/
theorem exists_accepted_of_ne {batch : List (Entry × Option PathBuf)} {cs cs' : List Change}
    {n n' : Node W} (h : exec (batch.foldlM applyRemoteItem cs) n = (.ok cs', n'))
    (hne : cs' ≠ cs) : ∃ pre remote tmp post cs₁ n₁, batch = pre ++ (remote, tmp) :: post ∧
      exec (pre.foldlM applyRemoteItem cs) n = (.ok cs₁, n₁) ∧
      n₁.folder.shouldAcceptRemote remote := by
  induction batch generalizing n with
  | nil =>
    cases h
    exact absurd rfl hne
  | cons item batch ih =>
    obtain ⟨remote, tmp⟩ := item
    cases hacc : n.folder.shouldAcceptRemote remote with
    | true => exact ⟨[], remote, tmp, batch, cs, n, rfl, rfl, hacc⟩
    | false =>
      rw [List.foldlM_cons] at h
      obtain ⟨cs₁, n₁, hitem, hrest⟩ := of_exec_bind h
      obtain rfl : cs₁ = cs := by
        obtain ⟨w, hcore | ⟨err, hcore⟩⟩ := exec_applyRemoteEntryCore_reject hacc tmp <;>
          rw [exec_applyRemoteItem, hcore] at hitem <;> cases hitem
        exact List.append_nil cs
      obtain ⟨pre, remote', tmp', post, cs₂, n₂, rfl, hpre, hacc'⟩ := ih hrest
      refine ⟨(remote, tmp) :: pre, remote', tmp', post, cs₂, n₂, rfl, ?_, hacc'⟩
      rw [List.foldlM_cons, exec_bind_ok hitem]
      exact hpre

theorem advances_applyRemoteEntries {n : Node W} {batch : List (Entry × Option PathBuf)}
    (h : RemoteRaises n batch) :
    n.folder.Advances (exec (applyRemoteEntries batch) n).2.folder := by
  -- an element that is recorded does not touch the trees
  have htrees {pre : List (Entry × Option PathBuf)} {cs : List Change} {n₁ : Node W}
      (hpre : exec (applyRemoteBatch pre) n = (.ok cs, n₁)) :
      n.folder.Advances n₁.folder := by
    obtain ⟨w, r, rfl, -⟩ := exec_foldlM_applyRemoteItem_ok hpre
    rcases (issues_foldlM_applyRemoteItem hpre).2.1.lamport_le.eq_or_lt with heq | hlt
    · exact .inl (congrArg (RootReport.mk _ _) heq.symm)
    · exact .inr hlt
  match hrun : exec (applyRemoteEntries batch) n with
  | (.error err, n') =>
    obtain ⟨pre, item, post, cs, n₁, w, -, hpre, -, rfl⟩ := exec_applyRemoteEntries_error hrun
    have hn₁ := htrees hpre
    exact hn₁
  | (.ok cs, n') =>
    rw [applyRemoteEntries] at hrun
    obtain ⟨cs', n₁, hloop, hrest⟩ := of_exec_bind hrun
    obtain ⟨_, n₂, hcommit, hpure⟩ := of_exec_bind hrest
    obtain ⟨-, rfl⟩ := Prod.mk.inj hpure
    by_cases hnil : cs' = []
    · subst hnil
      obtain ⟨-, rfl⟩ := Prod.mk.inj hcommit
      have hn₁ := htrees hloop
      exact hn₁
    · refine .inr ?_
      obtain ⟨pre, remote, tmp, post, cs₁, n₃, hbatch, hpre, hacc⟩ :=
        exists_accepted_of_ne hloop hnil
      obtain ⟨remote', n₄, hturn, hmoves⟩ := h ⟨remote, n₃, pre, tmp, post, cs₁, hbatch, hpre, hacc⟩
      obtain ⟨hle, hle'⟩ := hturn.lamport_le hloop
      have hcommit' := toReplica_commitChanges cs' n₁
      rw [hcommit] at hcommit'
      calc n.folder.lamport
        _ ≤ n₄.folder.lamport := hle
        _ < (recordRemote n₄.folder.toReplica remote').1.lamport := lamport_lt_recordRemote hmoves
        _ ≤ n₁.folder.lamport := hle'
        _ = n₂.folder.lamport := (congrArg Replica.lamport hcommit').symm

/-! ## Methods that always raise it -/

omit [FileSystem W] in
/-- Pruning nothing leaves the trees alone. -/
theorem exec_prune_trees (n : Node W) : ∃ n', exec pruneTombstonesCoveredByWatermark n =
    (.ok n.folder.prune.2, n') ∧ n'.folder.lamport = n.folder.lamport ∧
      (n.folder.prune.2 = 0 → n' = n) := by
  rw [pruneTombstonesCoveredByWatermark, exec_get_bind]
  by_cases h : 0 < n.folder.prune.2
  · simp only [h, ↓reduceIte, NodeM.modifyFolder, exec_modify_bind, exec_pure]
    exact ⟨_, rfl, rfl, fun h0 ↦ absurd h0 h.ne'⟩
  · simp only [h, ↓reduceIte, exec_pure]
    exact ⟨n, rfl, rfl, fun _ ↦ rfl⟩

/-- The trees of a node. -/
def Node.trees (n : Node W) : TreeSnapshot × TreeSnapshot := (n.folder.tree, n.folder.liveTree)

omit [Blake3] in
theorem keepsTrees_saveFile (name : Str) (update : FolderState → Store → Store) :
    Keeps (Same Node.trees) (saveFile name update : NodeM W Unit) := by
  intro n
  obtain ⟨n', h, hf⟩ := exec_saveFile_folder name update n
  rw [h]
  exact congrArg (fun folder ↦ (folder.tree, folder.liveTree)) hf

omit [Blake3] in
theorem keepsTrees_catchUp : Keeps (Same Node.trees) (catchUp : NodeM W Unit) := by
  refine Keeps.bind keeps_get fun n ↦ ?_
  dsimp only
  split
  · exact Keeps.bind (fun _ ↦ rfl) fun _ ↦ keepsTrees_saveFile _ _
  · exact keeps_pure _

omit [Blake3] in
/-- Raising the watermark leaves the trees alone. -/
theorem keepsTrees_raiseGcWatermark (incoming : GcWatermark) :
    Keeps (Same Node.trees) (raiseGcWatermark incoming : NodeM W Bool) := by
  refine Keeps.bind keeps_get fun n ↦ ?_
  dsimp only
  refine Keeps.bind (fun _ ↦ rfl) fun _ ↦ ?_
  split
  · exact Keeps.bind (keepsTrees_saveFile _ _) fun _ ↦ Keeps.bind keepsTrees_catchUp fun _ ↦
      keeps_pure _
  · exact keeps_pure _

/-- Merging a watermark prunes nothing, and leaves the trees alone, or it raises the
clock. -/
theorem advances_mergeGcWatermark (n : Node W) (incoming : GcWatermark) :
    n.folder.Advances (exec (mergeGcWatermark incoming) n).2.folder := by
  obtain ⟨n₁, changed, hraise, hr₁⟩ := exec_raiseGcWatermark_toReplica incoming n
  have htrees : n₁.trees = n.trees := by
    have h := keepsTrees_raiseGcWatermark incoming n
    rwa [hraise] at h
  have hticks : n.folder.lamport ≤ n₁.folder.lamport := by
    rw [hr₁]
    exact (ticks_raiseGcWatermark n.folder.toReplica incoming).lamport_le
  obtain ⟨n₂, hprune, hlamport, hnone⟩ := exec_prune_trees n₁
  rw [mergeGcWatermark, exec_bind_ok hraise, exec_bind_ok hprune]
  by_cases hp : 0 < n₁.folder.prune.2
  · simp only [hp, ↓reduceIte, NodeM.modifyFolder, exec_modify_bind]
    obtain ⟨n₃, hsave, hf⟩ := exec_saveFile_folder (lit "lamport")
      (fun folder store ↦ { store with lamport := .saved folder.lamport })
      { n₂ with folder := { n₂.folder with lamport := n₂.folder.lamport + 1 } }
    rw [saveLamport, exec_bind_ok hsave, exec_pure, hf]
    exact .inr (Nat.lt_succ_of_le (hticks.trans hlamport.ge))
  · simp only [hp, ↓reduceIte, exec_pure]
    obtain rfl := hnone (Nat.eq_zero_of_not_pos hp)
    rcases hticks.eq_or_lt with heq | hlt
    · left
      rw [FolderState.report, FolderState.report, ← heq]
      obtain ⟨htree, hlive⟩ := Prod.mk.inj htrees
      rw [htree, hlive]
    · exact .inr hlt

theorem advances_gcTombstonesForConvergedRoot (n : Node W) :
    n.folder.Advances (exec gcTombstonesForConvergedRoot n).2.folder := by
  rw [gcTombstonesForConvergedRoot, exec_get_bind]
  by_cases he : n.folder.tombstoneWatermark.isEmpty
  · simp only [he, ↓reduceIte, exec_pure]
    exact .inl rfl
  · simp only [he, Bool.false_eq_true, ↓reduceIte]
    have hmerge := advances_mergeGcWatermark n n.folder.tombstoneWatermark
    rw [exec_bind]
    generalize exec (mergeGcWatermark n.folder.tombstoneWatermark) n = r at hmerge
    obtain ⟨_ | _, n'⟩ := r
    · exact hmerge
    · exact hmerge

/-! ## Starting -/

/-- What a node announces once it has loaded and pruned the given files and has found
nothing new. -/
def loadedReport (origin : Str) (n : Node W) (entries : Index) : RootReport :=
  let r := FolderState.loaded n.folder.root origin n.store entries n.folder.minted
  ⟨(deriveTree r.entries).rootHash, (deriveLiveTree r.entries).rootHash, r.lamport⟩

/-- A start announces what it has loaded, or a greater clock. -/
theorem report_folderStateNew {root : PathBuf} {origin : Str} {n n' : Node W}
    (h : exec (FolderState.new root origin) n = (.ok (), n')) :
    ∃ entries, loadSavedEntries n.store.entries = .ok entries ∧
      (n'.folder.report = loadedReport origin n entries ∨
        (loadedReport origin n entries).lamport < n'.folder.lamport) := by
  rw [FolderState.new] at h
  obtain ⟨root, n₁, hroot, h⟩ := of_exec_bind h
  obtain ⟨_, n₂, hdir, h⟩ := of_exec_bind h
  obtain ⟨_, n₃, hclean, h⟩ := of_exec_bind h
  rw [exec_fs_world] at hroot hdir hclean
  obtain ⟨-, rfl⟩ := Prod.mk.inj hroot
  obtain ⟨-, rfl⟩ := Prod.mk.inj hdir
  obtain ⟨-, rfl⟩ := Prod.mk.inj hclean
  rw [exec_get_bind] at h
  cases hload : loadSavedEntries n.store.entries with
  | error err =>
    rw [hload] at h
    cases h
  | ok entries =>
    rw [hload, NodeM.ofResult, exec_pure_bind, exec_modify_bind] at h
    generalize hn : (Node.mk _ _ _ : Node W) = n₄ at h
    obtain ⟨n₅, hprune, hr₅, -⟩ := exec_pruneTombstonesCoveredByWatermark n₄
    rw [exec_bind_ok hprune] at h
    obtain ⟨_, n₆, hsave, h⟩ := of_exec_bind h
    obtain ⟨changes, n₇, hrescan, h⟩ := of_exec_bind h
    obtain ⟨_, n₈, hsave', h⟩ := of_exec_bind h
    obtain ⟨n₉, hlamport, hf₉⟩ := exec_saveFile_folder (lit "lamport")
      (fun folder store ↦ { store with lamport := .saved folder.lamport }) n₈
    rw [saveLamport, hlamport] at h
    obtain ⟨-, rfl⟩ := Prod.mk.inj h
    have hloaded : n₆.folder.toReplica =
        FolderState.loaded n.folder.root origin n.store entries n.folder.minted := by
      rw [folder_of_exec_when_saveEntries hsave, hr₅, ← hn]
      rfl
    refine ⟨entries, rfl, ?_⟩
    rw [hf₉, folder_of_exec_when_saveEntries hsave']
    have hspec := exec_rescan n₆
    rcases hsurvey : exec (survey n₆.folder.root) n₆.view with ⟨err | s, v⟩
    · rw [hsurvey, hrescan] at hspec
      cases hspec
    · rw [hsurvey, hrescan] at hspec
      obtain ⟨w, files, cache, hexec⟩ := hspec
      obtain ⟨-, rfl⟩ := Prod.mk.inj hexec
      have hplaced : s.Placed := Survey.yields_placed _ _ _ (congrArg Prod.fst hsurvey)
      rw [loadedReport, ← hloaded]
      rcases (Survey.stamps_record hplaced (n₆.folder.toReplica, [])).eq_or_lt with heq | hlt
      · rw [heq]
        exact .inl rfl
      · exact .inr hlt

end Methods

/-! ## Announcing -/

/-- A node that announces its roots, and what it has announced, the latest first. -/
structure Announcer (W : Type) where
  node : Node W
  up : Bool
  announced : List RootReport

/-- What can happen to such a node. -/
inductive AnnouncerAct (W : Type) where
  /-- Anything happens to the folder and the state files from outside. -/
  | edit (w : W) (store : Store)
  | call (call : Call)
  | announce
  /-- The node stops, at any time, and starts again. -/
  | restart

namespace Announcer

variable {W : Type} [FileSystem W] [Blake3] {root : PathBuf} {origin : Str} {s s' : Announcer W}

/-- A step of the node `origin` on the folder `root`; only a running one can be called and
announces. -/
def next (root : PathBuf) (origin : Str) (s : Announcer W) : AnnouncerAct W → Option (Announcer W)
  | .edit w store => some { s with node := { s.node with world := w, store } }
  | .call call => if s.up then some { s with node := call.run s.node } else none
  | .announce =>
    if s.up then some { s with announced := s.node.folder.report :: s.announced } else none
  | .restart =>
    let r := exec (FolderState.new root origin) s.node
    some { s with node := r.2, up := r.1.isOk }

/-- The call raises the clock if it moves a root. -/
def CallRaises (n : Node W) : Call → Prop
  | .rescan => RescanRaises n n.view
  | .applyPaths absPaths => ∀ v, fallbackView n absPaths = some v → RescanRaises n v
  | .applyRemoteEntries batch => RemoteRaises n batch
  | .mergeGcWatermark _ | .gcTombstonesForConvergedRoot => True

/-- The step raises the clock if it moves a root.  A start is from files that give the
roots and the clock of the last announcement, or a greater clock. -/
def Raises (origin : Str) (s : Announcer W) : AnnouncerAct W → Prop
  | .edit _ _ | .announce => True
  | .call call => CallRaises s.node call
  | .restart => ∀ last ∈ s.announced.head?, ∀ entries,
      loadSavedEntries s.node.store.entries = .ok entries →
        loadedReport origin s.node entries = last ∨
          last.lamport < (loadedReport origin s.node entries).lamport

/-- A node that has not started yet. -/
def Silent (s : Announcer W) : Prop := s.up = false ∧ s.announced = []

/-- The runs of the node `origin` on the folder `root`, held to what `P` allows. -/
def machine (root : PathBuf) (origin : Str) (P : Announcer W → AnnouncerAct W → Prop) :
    Machine (Announcer W) :=
  .ofActions Silent (next root origin) P

/-- Whatever order the announcements reach a peer in that knew nothing of the node, the
last one is stored. -/
def LastReportWins (origin : Str) (s : Announcer W) : Prop :=
  ∀ (reports : RootReports) (arrivals : List (Str × RootReport)), reports[origin]? = none →
    (RootReports.of origin arrivals).Perm s.announced →
    (reports.receive arrivals)[origin]? = s.announced.head?

/-- The report is the last one announced, or above it. -/
def Follows (s : Announcer W) (report : RootReport) : Prop :=
  ∀ last ∈ s.announced.head?, report = last ∨ last.lamport < report.lamport

/-- The last report is above all others, and the next one will be. -/
structure Ascends (s : Announcer W) : Prop where
  le_last : ∀ last ∈ s.announced.head?, ∀ a ∈ s.announced, a = last ∨ a.lamport < last.lamport
  follows : s.up → s.Follows s.node.folder.report

omit [FileSystem W] [Blake3] in
theorem Ascends.lastReportWins [Blake3] (h : s.Ascends) : s.LastReportWins origin := by
  intro reports arrivals hnone hperm
  cases hann : s.announced with
  | nil =>
    rw [hann, List.perm_nil] at hperm
    rw [RootReports.getElem?_receive_of_nil hperm, hnone]
    rfl
  | cons last earlier =>
    refine RootReports.getElem?_receive_of_max (fun a ha ↦ ?_) (fun a ha ↦ ?_) (.inl ?_)
    · exact h.le_last last (by rw [hann]; rfl) a (hperm.mem_iff.mp ha)
    · rw [hnone] at ha
      cases ha
    · rw [hperm.mem_iff, hann]
      exact List.mem_cons_self

theorem advances_run {n : Node W} {call : Call} (h : CallRaises n call) :
    n.folder.Advances (call.run n).folder := by
  cases call with
  | rescan => exact advances_rescan h
  | applyPaths absPaths => exact advances_applyPaths h
  | applyRemoteEntries batch => exact advances_applyRemoteEntries h
  | mergeGcWatermark incoming => exact advances_mergeGcWatermark n incoming
  | gcTombstonesForConvergedRoot => exact advances_gcTombstonesForConvergedRoot n

omit [FileSystem W] [Blake3] in
/-- A node that advances still follows its last announcement. -/
theorem Follows.advances [Blake3] {folder folder' : FolderState} (h : s.Follows folder.report)
    (hadv : folder.Advances folder') : s.Follows folder'.report := by
  intro last hlast
  rcases hadv with heq | hlt
  · rw [heq]
    exact h last hlast
  · refine .inr ?_
    rcases h last hlast with rfl | hlast
    · exact hlt
    · exact hlast.trans hlt

theorem Ascends.next (h : s.Ascends) {act : AnnouncerAct W} (hraises : Raises origin s act)
    (hnext : s.next root origin act = some s') : s'.Ascends := by
  cases act with
  | edit w store =>
    cases hnext
    exact ⟨h.le_last, h.follows⟩
  | call call =>
    rw [Announcer.next] at hnext
    split at hnext <;> cases hnext
    next hup => exact ⟨h.le_last, fun _ ↦ (h.follows hup).advances (advances_run hraises)⟩
  | announce =>
    rw [Announcer.next] at hnext
    split at hnext <;> cases hnext
    next hup =>
      constructor
      · rintro _ ⟨⟩ a ha
        rcases List.mem_cons.mp ha with rfl | ha
        · exact .inl rfl
        · obtain ⟨last, hlast⟩ := Option.isSome_iff_exists.mp
            (List.isSome_head?.mpr (List.ne_nil_of_mem ha))
          rcases h.le_last last hlast a ha with rfl | hlt
          · exact (h.follows hup a hlast).imp Eq.symm id
          · refine .inr ?_
            rcases h.follows hup last hlast with heq | hlt'
            · rwa [heq]
            · exact hlt.trans hlt'
      · rintro - _ ⟨⟩
        exact .inl rfl
  | restart =>
    cases hnext
    refine ⟨h.le_last, fun hup last hlast ↦ ?_⟩
    match hnew : exec (FolderState.new root origin) s.node with
    | (.error err, n') =>
      rw [hnew] at hup
      cases hup
    | (.ok (), n') =>
      obtain ⟨entries, hload, hreport⟩ := report_folderStateNew hnew
      have hloaded := hraises last hlast entries hload
      rcases hreport with heq | hlt
      · rwa [heq]
      · refine .inr ?_
        rcases hloaded with heq | hlt'
        · rwa [heq] at hlt
        · exact hlt'.trans hlt

/-- The node after an action, if it is possible. -/
def step (root : PathBuf) (origin : Str) (s : Announcer W) (act : AnnouncerAct W) : Announcer W :=
  (s.next root origin act).getD s

theorem reachable_step {P : Announcer W → AnnouncerAct W → Prop}
    (h : (machine root origin P).Reachable s) {act : AnnouncerAct W} (hP : P s act) :
    (machine root origin P).Reachable (s.step root origin act) := by
  rw [step]
  match hnext : s.next root origin act with
  | none => exact h
  | some s' => exact .step h ⟨act, hP, hnext⟩

/-- A node that is yet to start on a folder with a file. -/
def silent : Announcer Posix.Disk :=
  ⟨Node.blank [lit "s"] (lit "A") (folderWith [1]), false, []⟩

/-- The node has started and has announced the file. -/
def spoken : Announcer Posix.Disk :=
  (silent.step [lit "s"] (lit "A") .restart).step [lit "s"] (lit "A") .announce

/-- The file changes. -/
def edited : Announcer Posix.Disk :=
  spoken.step [lit "s"] (lit "A") (.edit (folderWith [2]) spoken.node.store)

/-- A directory of another node, of a version that is not above the clock. -/
def lateDir : Entry :=
  ⟨lit "b", .dir, none, none, 0, none, ⟨1, lit "B"⟩⟩

omit [FileSystem W] in
theorem reachable_spoken {P : Announcer Posix.Disk → AnnouncerAct Posix.Disk → Prop}
    (hrestart : P silent .restart) (hannounce : ∀ s, P s .announce) :
    (machine [lit "s"] (lit "A") P).Reachable spoken :=
  reachable_step (reachable_step (.init ⟨rfl, rfl⟩) hrestart) (hannounce _)

end Announcer

end Lilsync
