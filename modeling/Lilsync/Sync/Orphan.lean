import Lilsync.Sync.Slots

/-!
# Orphaned slots

A slot without a result needs a leader that will publish one.  It loses its
leader when the task is aborted before it has published, and only then.
-/

namespace Lilsync

open Lilsync.Lib

namespace SyncSystem

variable {s s' : SyncSystem} {t : Nat} {task : Task}

/-- A live task leads the slot. -/
def Led (s : SyncSystem) (slot : Nat) : Prop :=
  ∃ (t : Nat) (task : Task), s.tasks[t]? = some task ∧ task.pc.leads slot

/-- Every active slot without a result has a live leader. -/
def NoOrphan (s : SyncSystem) : Prop :=
  ∀ h slot, s.downloads.active h = some slot → s.result slot = none → s.Led slot

/-- Aborting spares the leaders that have not published. -/
def SparesLeaders (s : SyncSystem) : SyncAct → Prop
  | .abort t => ∀ task ∈ s.tasks[t]?, ¬ task.pc.isLeader
  | _ => True

instance (s : SyncSystem) (act : SyncAct) : Decidable (SparesLeaders s act) :=
  match act with
  | .abort t => inferInstanceAs (Decidable (∀ task ∈ s.tasks[t]?, ¬ task.pc.isLeader))
  | .spawn .. | .run .. | .fail _ | .install _ => isTrue trivial

/-- A leader that goes on leading, wherever the task that moved is. -/
theorem Led.of_moves {slot : Nat} (h : s.Led slot) (ht : s.tasks[t]? = some task) {pc : Pc}
    (htasks : s'.tasks = (s.setPc t pc).tasks) (hpc : task.pc.leads slot → pc.leads slot) :
    s'.Led slot := by
  obtain ⟨u, task', hu, hl⟩ := h
  rw [Led, htasks]
  refine ⟨u, _, by rw [getElem?_setPc, hu]; rfl, ?_⟩
  split
  · next heq =>
    subst heq
    rw [ht] at hu
    exact hpc (Option.some.inj hu ▸ hl)
  · exact hl

theorem isLeader_of_leads {pc : Pc} {slot : Nat} (h : pc.leads slot) : pc.isLeader := by
  cases pc <;> first | rfl | cases h

theorem NoOrphan.quiet {pc : Pc} (h : NoOrphan s) (ht : s.tasks[t]? = some task)
    (hq : Quiet s s' t task pc) (hl : ∀ slot, task.pc.leads slot → pc.leads slot) :
    NoOrphan s' := by
  intro hash slot ha hr
  rw [hq.tends.result_eq] at hr
  exact (h hash slot (hq.tends.active _ _ ha) hr).of_moves ht hq.tasks_eq (hl slot)

theorem NoOrphan.start (h : NoOrphan s) (hs : SlotsInRange s) (ht : s.tasks[t]? = some task)
    (hpc : task.pc = .spawned) (hactive : s.downloads.active task.contentHash = none) :
    NoOrphan (s.start t task) := by
  rw [start_of_active_eq_none hactive]
  intro hash slot ha hr
  change Function.update s.downloads.active task.contentHash _ hash = some slot at ha
  by_cases heq : hash = task.contentHash
  · rw [heq, Function.update_self] at ha
    obtain rfl := Option.some.inj ha
    exact ⟨t, _, by rw [getElem?_setPc, ht, Option.map_some, if_pos rfl], beq_self_eq_true _⟩
  · rw [Function.update_of_ne heq] at ha
    have hlt := hs.active _ _ ha
    have hr' : s.result slot = none := by
      change (s.downloads.slots ++ [_])[slot]?.bind _ = none at hr
      rwa [List.getElem?_append_left hlt] at hr
    refine (h hash slot ha hr').of_moves ht rfl ?_
    rw [hpc]
    nofun

theorem NoOrphan.publish (h : NoOrphan s) (hs : SlotsInRange s) (ht : s.tasks[t]? = some task)
    {slot : Nat} {r : Except Str PathBuf} (hpc : task.pc = .fetched slot r) :
    NoOrphan (s.publish t slot r) := by
  intro hash j ha hr
  rw [result_publish r (hs.leads t task slot ht (by rw [hpc]; exact beq_self_eq_true _))] at hr
  split at hr
  · cases hr
  · next hne =>
    refine (h hash j ha hr).of_moves ht rfl ?_
    rw [hpc]
    exact fun hl ↦ absurd (beq_iff_eq.mp hl) hne

theorem NoOrphan.notify (h : NoOrphan s) (ht : s.tasks[t]? = some task) {slot : Nat}
    (hpc : task.pc = .stored slot) : NoOrphan (s.notify t slot) := by
  intro hash j ha hr
  rw [result_notify] at hr
  obtain ⟨u, task', hu, hl⟩ := h hash j ha hr
  refine ⟨u, _, by rw [getElem?_notify, hu]; rfl, ?_⟩
  dsimp only
  split
  · next heq =>
    subst heq
    rw [ht] at hu
    rw [← Option.some.inj hu, hpc] at hl
    cases hl
  · rwa [leads_wake]

/-- A step that spares the leaders orphans no slot. -/
theorem NoOrphan.next [Blake3] {pid : Nat} (h : NoOrphan s) (hs : SlotsInRange s) {act : SyncAct}
    (hspares : SparesLeaders s act) (hnext : s.next pid act = some s') : NoOrphan s' := by
  cases act with
  | spawn call contentHash entry =>
    rw [SyncSystem.next] at hnext
    split at hnext
    · cases hnext
    · obtain rfl := Option.some.inj hnext
      intro hash slot ha hr
      obtain ⟨u, task', hu, hl⟩ := h hash slot ha hr
      obtain ⟨hlt, -⟩ := List.getElem?_eq_some_iff.mp hu
      exact ⟨u, task', by rw [List.getElem?_append_left hlt, hu], hl⟩
  | run t weather =>
    obtain ⟨task, ht, hrun⟩ := Option.bind_eq_some_iff.mp hnext
    rcases runTask_cases hrun with
      ⟨hpc, ha, rfl⟩ | ⟨slot, r, hpc, rfl⟩ | ⟨slot, hpc, rfl⟩ | ⟨pc, hq, hl⟩
    · exact h.start hs ht hpc ha
    · exact h.publish hs ht hpc
    · exact h.notify ht hpc
    · exact h.quiet ht hq hl
  | fail call =>
    obtain rfl := Option.some.inj hnext
    exact h
  | abort t =>
    obtain ⟨task, ht, habort⟩ := Option.bind_eq_some_iff.mp hnext
    split at habort
    · obtain rfl := Option.some.inj habort
      intro hash slot ha hr
      exact (h hash slot ha hr).of_moves ht rfl fun hl ↦
        absurd (isLeader_of_leads hl) (hspares task ht)
    · cases habort
  | install ts =>
    obtain rfl := Option.some.inj hnext
    exact h

/-- As long as no leader is aborted before it has published, every active slot
without a result has a live leader. -/
theorem noOrphan_of_sparesLeaders [Blake3] {pid : Nat}
    (h : (machine pid SparesLeaders).Reachable s) : NoOrphan s := by
  refine (h.invariant (I := fun s ↦ NoOrphan s ∧ SlotsInRange s) ?_ ?_).1
  · intro s hs
    refine ⟨fun hash slot ha ↦ ?_, fun hash slot ha ↦ ?_, fun t task slot ht ↦ ?_⟩
    · rw [hs.downloads_eq] at ha
      cases ha
    · rw [hs.downloads_eq] at ha
      cases ha
    · rw [hs.tasks_eq] at ht
      cases ht
  · rintro s s' - ⟨ho, hr⟩ ⟨act, hspares, hnext⟩
    exact ⟨ho.next hr hspares hnext, hr.next hnext⟩

theorem noOrphan_after_failedDownload :
    letI : Blake3 := Blake3.reference
    ∃ s, idle.nexts 1 SparesLeaders failedDownload = some s ∧ NoOrphan s := by
  let _ : Blake3 := Blake3.reference
  obtain ⟨s, hs⟩ : ∃ s, idle.nexts 1 SparesLeaders failedDownload = some s :=
    Option.isSome_iff_exists.mp (by decide +kernel)
  exact ⟨s, hs, noOrphan_of_sparesLeaders (reachable_nexts (.init idle_idle) hs)⟩

/-- A run in which one download fails while another is under way: the call fails
and aborts the task that leads the other one. -/
def abortedLeader : List SyncAct :=
  [.spawn 0 zeroHash (remoteFile "a" zeroHash),
    .spawn 0 (Vector.replicate 32 1) (remoteFile "b" (Vector.replicate 32 1)),
    .run 0 offline, .run 0 offline] ++ List.replicate 8 (.run 1 offline) ++ [.fail 0, .abort 0]

/-- The counterexample: the slot of the aborted download stays active with no
result and nobody to publish one. -/
theorem not_forall_noOrphan :
    letI : Blake3 := Blake3.reference
    ¬ ∀ pid s, (machine pid fun _ _ ↦ True).Reachable s → NoOrphan s := by
  let _ : Blake3 := Blake3.reference
  intro h
  obtain ⟨s, hs, horphan⟩ := (Option.any_eq_true _ _).mp
    (show (idle.nexts 1 (fun _ _ ↦ True) abortedLeader).any (fun s ↦
      s.downloads.active zeroHash == some 0 && (s.result 0).isNone
        && s.tasks.all fun task ↦ !task.pc.leads 0) by decide +kernel)
  simp only [Bool.and_eq_true, beq_iff_eq, Option.isNone_iff_eq_none, List.all_eq_true,
    Bool.not_eq_true'] at horphan
  obtain ⟨⟨hactive, hresult⟩, hleads⟩ := horphan
  obtain ⟨t, task, ht, hl⟩ := h 1 s (reachable_nexts (.init idle_idle) hs)
    zeroHash 0 hactive hresult
  rw [hleads task (List.mem_of_getElem? ht)] at hl
  cases hl

end SyncSystem

end Lilsync
