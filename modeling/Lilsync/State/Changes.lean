import Lilsync.Replica.Changes
import Lilsync.State.Sound

/-!
# What the calls report

`rescan`, `apply_paths` and `apply_remote_entries` return the changes they made.  From
a sound folder state these tell exactly what happened to the index.
-/

namespace Lilsync

open Lilsync.Lib Lilsync.Lib.Proc

variable {W : Type} [FileSystem W] [Blake3]

/-- A call that reports changes. -/
inductive ReportingCall where
  | rescan
  | applyPaths (absPaths : List PathBuf)
  | applyRemoteEntries (batch : List (Entry × Option PathBuf))

namespace ReportingCall

/-- The entries that come from a peer. -/
def received : ReportingCall → List Entry
  | .applyRemoteEntries batch => batch.map Prod.fst
  | _ => []

/-- The method that is called. -/
def program : ReportingCall → NodeM W (List Change)
  | .rescan => Lilsync.rescan
  | .applyPaths absPaths => Lilsync.applyPaths absPaths
  | .applyRemoteEntries batch => Lilsync.applyRemoteEntries batch

end ReportingCall

variable {n n' : Node W} {changes : List Change}

theorem reported_rescan (h : n.folder.Sound) (hexec : exec rescan n = (.ok changes, n')) :
    Reported [] n.folder.toReplica changes n'.folder.toReplica := by
  have hspec := exec_rescan n
  rcases hsurvey : exec (survey n.folder.root) n.view with ⟨err | s, v⟩
  · rw [hsurvey, hexec] at hspec
    cases hspec
  · rw [hsurvey] at hspec
    obtain ⟨w, files, cache, hrun⟩ := hspec
    rw [hexec] at hrun
    have hplaced : s.Placed := Survey.yields_placed _ _ _ (congrArg Prod.fst hsurvey)
    obtain ⟨labelled, htells⟩ := (Tells.start [] h.lamport_le).stamps
      (Survey.stamps_record hplaced (n.folder.toReplica, []))
    obtain ⟨hchanges, rfl⟩ := Prod.mk.inj hrun
    obtain rfl := Except.ok.inj hchanges
    exact htells.reported

theorem reported_applyPaths (h : n.folder.Sound) {absPaths : List PathBuf}
    (hexec : exec (applyPaths absPaths) n = (.ok changes, n')) :
    Reported [] n.folder.toReplica changes n'.folder.toReplica := by
  obtain ⟨v, ⟨-, -, hrescan⟩ | ⟨err, herr⟩ | hcommit⟩ := exec_applyPaths absPaths n
  · rw [hrescan] at hexec
    have hsound : (n.withView v).folder.Sound := h
    exact reported_rescan (n := n.withView v) hsound hexec
  · rw [herr] at hexec
    cases hexec
  · have hplaced : ∀ rs ∈ eventSights n absPaths, rs.2.Placed rs.1 :=
      fun _ ↦ placed_of_mem_eventSights
    obtain ⟨labelled, htells⟩ := (Tells.start [] h.lamport_le).stamps
      (stamps_recordAll hplaced (n.folder.toReplica, []))
    rw [hcommit] at hexec
    obtain ⟨w, files, dirty, hsave⟩ := exec_saveScanCache ((n.withReplica
      (recordAll (eventSights n absPaths) (n.folder.toReplica, [])).1).withView v)
    rw [exec_bind_ok hsave] at hexec
    obtain ⟨_, n₁, hrun, hpure⟩ := of_exec_bind hexec
    obtain ⟨hchanges, rfl⟩ := Prod.mk.inj hpure
    obtain rfl := Except.ok.inj hchanges
    generalize hn₀ : (Node.mk _ _ _ : Node W) = n₀ at hrun
    have hreplica := toReplica_commitChanges
      (recordAll (eventSights n absPaths) (n.folder.toReplica, [])).2 n₀
    rw [hrun] at hreplica
    rw [hreplica, ← hn₀]
    exact htells.reported

omit [Blake3] in
/-- The loop of `apply_remote_entries` goes on telling what happens. -/
theorem Tells.foldlM_applyRemoteItem {received : List Entry} {r : Replica}
    {labelled : List Labelled} {batch : List (Entry × Option PathBuf)} {cs : List Change}
    (h : Tells received r labelled (n.folder.toReplica, cs))
    (hmem : ∀ item ∈ batch, item.1 ∈ received)
    (hexec : exec (batch.foldlM applyRemoteItem cs) n = (.ok changes, n')) :
    ∃ labelled', Tells received r labelled' (n'.folder.toReplica, changes) := by
  induction batch generalizing cs n labelled with
  | nil =>
    obtain ⟨hcs, rfl⟩ := Prod.mk.inj hexec
    obtain rfl := Except.ok.inj hcs
    exact ⟨labelled, h⟩
  | cons item batch ih =>
    obtain ⟨hitem, hbatch⟩ := List.forall_mem_cons.mp hmem
    rw [List.foldlM_cons, exec_bind, exec_applyRemoteItem] at hexec
    obtain ⟨w, ⟨err, hcore⟩ | ⟨-, hcore⟩ | ⟨-, hcore⟩⟩ :=
      exec_applyRemoteEntryCore_cases item.1 item.2 n
    · rw [hcore] at hexec
      cases hexec
    · rw [hcore] at hexec
      dsimp only at hexec
      rw [List.append_nil] at hexec
      exact ih (n := n.withWorld w) h hbatch hexec
    · rw [hcore] at hexec
      obtain ⟨labelled', hrecorded⟩ := h.recordRemote hitem
      exact ih (n := (n.withWorld w).withReplica _) hrecorded hbatch hexec

theorem reported_applyRemoteEntries (h : n.folder.Sound) {batch : List (Entry × Option PathBuf)}
    (hexec : exec (applyRemoteEntries batch) n = (.ok changes, n')) :
    Reported (batch.map Prod.fst) n.folder.toReplica changes n'.folder.toReplica := by
  rw [applyRemoteEntries, applyRemoteBatch_eq] at hexec
  obtain ⟨cs, n₁, hloop, hexec⟩ := of_exec_bind hexec
  obtain ⟨_, n₂, hcommit, hpure⟩ := of_exec_bind hexec
  obtain ⟨hchanges, rfl⟩ := Prod.mk.inj hpure
  obtain rfl := Except.ok.inj hchanges
  obtain ⟨labelled, htells⟩ := Tells.foldlM_applyRemoteItem
    (Tells.start (batch.map Prod.fst) h.lamport_le) (fun item ↦ List.mem_map_of_mem) hloop
  have hreplica := toReplica_commitChanges cs n₁
  rw [hcommit] at hreplica
  rw [hreplica]
  exact htells.reported

/-- A call that succeeds reports exactly what it did. -/
theorem reported_program (h : n.folder.Sound) {call : ReportingCall}
    (hexec : exec call.program n = (.ok changes, n')) :
    Reported call.received n.folder.toReplica changes n'.folder.toReplica := by
  cases call with
  | rescan => exact reported_rescan h hexec
  | applyPaths absPaths => exact reported_applyPaths h hexec
  | applyRemoteEntries batch => exact reported_applyRemoteEntries h hexec

end Lilsync
