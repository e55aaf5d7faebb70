import Lilsync.Sync.Slots

/-!
# Lost wakeups

A waiter needs a notification that is still to come.  It misses it when
`notify_waiters` is called after the waiter has read that there is no result and
before it has created its future, and only then.
-/

namespace Lilsync

open Lilsync.Lib

namespace SyncSystem

variable {s s' : SyncSystem} {t : Nat} {task : Task}

/-- Once the leader of a slot has called `notify_waiters`, nobody is parked on
the slot or about to be. -/
def NoLostWakeup (s : SyncSystem) : Prop :=
  ∀ (slot : Nat) (ds : DownloadSlot), s.downloads.slots[slot]? = some ds → ds.notified →
    ∀ (t : Nat) (task : Task), s.tasks[t]? = some task →
      task.pc ≠ .parked slot ∧ task.pc ≠ .sawNone slot

/-- `notify_waiters` is called only while no waiter is between its read and the
creation of its future. -/
def NotifiesInTime (s : SyncSystem) : SyncAct → Prop
  | .run t _ => ∀ task ∈ s.tasks[t]?, ∀ slot ∈ task.pc.notifies, ∀ task' ∈ s.tasks,
      task'.pc ≠ .sawNone slot
  | _ => True

instance (s : SyncSystem) (act : SyncAct) : Decidable (NotifiesInTime s act) :=
  match act with
  | .run t _ => inferInstanceAs (Decidable (∀ task ∈ s.tasks[t]?, ∀ slot ∈ task.pc.notifies,
      ∀ task' ∈ s.tasks, task'.pc ≠ .sawNone slot))
  | .spawn .. | .fail _ | .abort _ | .install _ => isTrue trivial

/-- A slot whose leader has published has a result, and keeps it. -/
structure Published (s : SyncSystem) : Prop where
  stored : ∀ (t : Nat) (task : Task) slot, s.tasks[t]? = some task → task.pc = .stored slot →
    s.result slot ≠ none
  notified : ∀ (slot : Nat) (ds : DownloadSlot), s.downloads.slots[slot]? = some ds →
    ds.notified → s.result slot ≠ none

theorem wake_eq_stored {pc : Pc} {slot j : Nat} (h : pc.wake slot = .stored j) : pc = .stored j := by
  cases pc <;> try exact h
  rw [Pc.wake] at h
  split at h <;> cases h

theorem wake_eq_sawNone {pc : Pc} {slot j : Nat} (h : pc.wake slot = .sawNone j) :
    pc = .sawNone j := by
  cases pc <;> try exact h
  rw [Pc.wake] at h
  split at h <;> cases h

theorem wake_eq_parked {pc : Pc} {slot j : Nat} (h : pc.wake slot = .parked j) :
    pc = .parked j ∧ j ≠ slot := by
  cases pc <;> try cases h
  rw [Pc.wake] at h
  split at h
  · cases h
  · next hne =>
    cases h
    exact ⟨rfl, hne⟩

/-- Where a task stands after the task `t` has moved. -/
theorem getElem?_of_setPc {u : Nat} {pc : Pc} {task' : Task}
    (h : (s.setPc t pc).tasks[u]? = some task') :
    (t = u ∧ task'.pc = pc) ∨ s.tasks[u]? = some task' := by
  rw [getElem?_setPc] at h
  obtain ⟨task₀, hu, rfl⟩ := Option.map_eq_some_iff.mp h
  split
  · next heq => exact .inl ⟨heq, rfl⟩
  · exact .inr hu

/-- Where a task stands after the task `t` has notified. -/
theorem getElem?_of_notify {slot u : Nat} {task' : Task}
    (h : (s.notify t slot).tasks[u]? = some task') :
    ∃ task₀, s.tasks[u]? = some task₀ ∧
      ((t = u ∧ task'.pc = .reading slot) ∨ task'.pc = task₀.pc.wake slot) := by
  rw [getElem?_notify] at h
  obtain ⟨task₀, hu, rfl⟩ := Option.map_eq_some_iff.mp h
  refine ⟨task₀, hu, ?_⟩
  dsimp only
  split
  · next heq => exact .inl ⟨heq, rfl⟩
  · exact .inr rfl

/-- The slot a new leader makes has no result, and no other slot changes. -/
theorem start_slots (hactive : s.downloads.active task.contentHash = none) {slot : Nat}
    {ds : DownloadSlot} (h : (s.start t task).downloads.slots[slot]? = some ds) :
    s.downloads.slots[slot]? = some ds ∨ ds = ⟨⟨1, [], none⟩, false⟩ := by
  rw [start_of_active_eq_none hactive] at h
  change (s.downloads.slots ++ [_])[slot]? = some ds at h
  rw [List.getElem?_append] at h
  split at h
  · exact .inl h
  · rw [List.getElem?_singleton] at h
    split at h <;> cases h
    exact .inr rfl

theorem start_result (hactive : s.downloads.active task.contentHash = none) {slot : Nat}
    (h : s.result slot ≠ none) : (s.start t task).result slot ≠ none := by
  rw [start_of_active_eq_none hactive, result]
  change (s.downloads.slots ++ [_])[slot]?.bind _ ≠ none
  have hlt : slot < s.downloads.slots.length := by
    by_contra hn
    rw [result, List.getElem?_eq_none (Nat.le_of_not_lt hn)] at h
    exact h rfl
  rwa [List.getElem?_append_left hlt]

namespace Published

theorem quiet {pc : Pc} (h : Published s) (hq : Quiet s s' t task pc) : Published s' := by
  refine ⟨fun u task' slot hu hpc ↦ ?_, fun slot ds' hds hn ↦ ?_⟩
  · rw [hq.tends.result_eq]
    rw [hq.tasks_eq] at hu
    rcases getElem?_of_setPc hu with ⟨-, heq⟩ | hu
    · exact absurd (heq.symm.trans hpc) (hq.stored slot)
    · exact h.stored u task' slot hu hpc
  · rw [hq.tends.result_eq]
    obtain ⟨ds, hds₀, -, hnot⟩ := hq.tends.slots slot ds' hds
    exact h.notified slot ds hds₀ (hnot ▸ hn)

theorem start (h : Published s) (hactive : s.downloads.active task.contentHash = none) :
    Published (s.start t task) := by
  refine ⟨fun u task' slot hu hpc ↦ start_result hactive ?_, fun slot ds hds hn ↦
    start_result hactive ?_⟩
  · rw [start_of_active_eq_none hactive] at hu
    rcases getElem?_of_setPc hu with ⟨-, heq⟩ | hu
    · rw [heq] at hpc
      cases hpc
    · exact h.stored u task' slot hu hpc
  · rcases start_slots hactive hds with hds | rfl
    · exact h.notified slot ds hds hn
    · cases hn

theorem publish (h : Published s) {slot : Nat} (hlt : slot < s.downloads.slots.length)
    {r : Except Str PathBuf} : Published (s.publish t slot r) := by
  refine ⟨fun u task' j hu hpc ↦ ?_, fun j ds hds hn ↦ ?_⟩
  · rw [result_publish r hlt]
    split
    · nofun
    · next hne =>
      rcases getElem?_of_setPc hu with ⟨-, heq⟩ | hu
      · rw [heq] at hpc
        cases hpc
        exact absurd rfl hne
      · exact h.stored u task' j hu hpc
  · rw [result_publish r hlt]
    split
    · nofun
    · next hne =>
      rw [SyncSystem.publish, downloads_setPc, getElem?_modifyState] at hds
      simp only [hne, ↓reduceIte, Option.map_id_fun', id_eq] at hds
      exact h.notified j ds hds hn

theorem notify (h : Published s) (ht : s.tasks[t]? = some task) {slot : Nat}
    (hpc : task.pc = .stored slot) : Published (s.notify t slot) := by
  refine ⟨fun u task' j hu hpc' ↦ ?_, fun j ds hds hn ↦ ?_⟩
  · rw [result_notify]
    obtain ⟨task₀, hu₀, ⟨-, heq⟩ | heq⟩ := getElem?_of_notify hu
    · rw [heq] at hpc'
      cases hpc'
    · rw [heq] at hpc'
      exact h.stored u task₀ j hu₀ (wake_eq_stored hpc')
  · rw [result_notify]
    rw [getElem?_slots_notify] at hds
    obtain ⟨ds₀, hds₀, rfl⟩ := Option.map_eq_some_iff.mp hds
    split at hn
    · next heq => exact heq ▸ h.stored t task slot ht hpc
    · exact h.notified j ds₀ hds₀ hn

end Published

namespace NoLostWakeup

theorem quiet {pc : Pc} (h : NoLostWakeup s) (hp : Published s) (ht : s.tasks[t]? = some task)
    (hq : Quiet s s' t task pc) : NoLostWakeup s' := by
  intro slot ds' hds hn u task' hu
  obtain ⟨ds, hds₀, -, hnot⟩ := hq.tends.slots slot ds' hds
  rw [hq.tasks_eq] at hu
  rcases getElem?_of_setPc hu with ⟨-, heq⟩ | hu
  · rw [heq]
    refine ⟨fun hpark ↦ ?_, fun hsaw ↦ ?_⟩
    · exact (h slot ds hds₀ (hnot ▸ hn) t task ht).2 (hq.parked slot hpark)
    · exact hp.notified slot ds hds₀ (hnot ▸ hn) (hq.sawNone slot hsaw)
  · exact h slot ds hds₀ (hnot ▸ hn) u task' hu

theorem start (h : NoLostWakeup s) (hactive : s.downloads.active task.contentHash = none) :
    NoLostWakeup (s.start t task) := by
  intro slot ds hds hn u task' hu
  rcases start_slots hactive hds with hds | rfl
  · rw [start_of_active_eq_none hactive] at hu
    rcases getElem?_of_setPc hu with ⟨-, heq⟩ | hu
    · rw [heq]
      exact ⟨nofun, nofun⟩
    · exact h slot ds hds hn u task' hu
  · cases hn

theorem publish (h : NoLostWakeup s) {slot : Nat} {r : Except Str PathBuf} :
    NoLostWakeup (s.publish t slot r) := by
  intro j ds' hds hn u task' hu
  rw [SyncSystem.publish, downloads_setPc, getElem?_modifyState] at hds
  obtain ⟨ds, hds₀, rfl⟩ := Option.map_eq_some_iff.mp hds
  have hn₀ : ds.notified := by
    split at hn <;> exact hn
  rcases getElem?_of_setPc hu with ⟨-, heq⟩ | hu
  · rw [heq]
    constructor <;> (intro hpc; cases hpc)
  · exact h j ds hds₀ hn₀ u task' hu

/-- A waiter that is parked is woken; one that is about to park would be lost. -/
theorem notify (h : NoLostWakeup s) {slot : Nat}
    (hintime : ∀ task' ∈ s.tasks, task'.pc ≠ .sawNone slot) :
    NoLostWakeup (s.notify t slot) := by
  intro j ds' hds hn u task' hu
  rw [getElem?_slots_notify] at hds
  obtain ⟨ds, hds₀, rfl⟩ := Option.map_eq_some_iff.mp hds
  obtain ⟨task₀, hu₀, ⟨-, heq⟩ | heq⟩ := getElem?_of_notify hu <;> rw [heq]
  · exact ⟨nofun, nofun⟩
  · split at hn
    · next hj =>
      subst hj
      exact ⟨fun hpark ↦ (wake_eq_parked hpark).2 rfl, fun hsaw ↦
        hintime task₀ (List.mem_of_getElem? hu₀) (wake_eq_sawNone hsaw)⟩
    · have hold := h j ds hds₀ hn u task₀ hu₀
      exact ⟨fun hpark ↦ hold.1 (wake_eq_parked hpark).1, fun hsaw ↦ hold.2 (wake_eq_sawNone hsaw)⟩

end NoLostWakeup

/-- What a run keeps when every leader notifies in time. -/
structure WakeupSafe (s : SyncSystem) : Prop where
  inRange : SlotsInRange s
  published : Published s
  noLostWakeup : NoLostWakeup s

theorem WakeupSafe.next [Blake3] {pid : Nat} (h : WakeupSafe s) {act : SyncAct}
    (hintime : NotifiesInTime s act) (hnext : s.next pid act = some s') : WakeupSafe s' := by
  have hrange := h.inRange.next hnext
  cases act with
  | spawn call contentHash entry =>
    rw [SyncSystem.next] at hnext
    split at hnext
    · cases hnext
    · obtain rfl := Option.some.inj hnext
      refine ⟨hrange, ⟨fun u task' slot hu hpc ↦ ?_, h.published.notified⟩, fun slot ds hds hn u
        task' hu ↦ ?_⟩
      · rcases getElem?_of_append hu with hu | rfl
        · exact h.published.stored u task' slot hu hpc
        · cases hpc
      · rcases getElem?_of_append hu with hu | rfl
        · exact h.noLostWakeup slot ds hds hn u task' hu
        · exact ⟨nofun, nofun⟩
  | run t weather =>
    obtain ⟨task, ht, hrun⟩ := Option.bind_eq_some_iff.mp hnext
    rcases runTask_cases hrun with
      ⟨-, ha, rfl⟩ | ⟨slot, r, hpc, rfl⟩ | ⟨slot, hpc, rfl⟩ | ⟨pc, hq, -⟩
    · exact ⟨hrange, h.published.start ha, h.noLostWakeup.start ha⟩
    · have hlt := h.inRange.leads t task slot ht (by rw [hpc]; exact beq_self_eq_true _)
      exact ⟨hrange, h.published.publish hlt, h.noLostWakeup.publish⟩
    · exact ⟨hrange, h.published.notify ht hpc, h.noLostWakeup.notify
        (hintime task ht slot (by rw [hpc]; rfl))⟩
    · exact ⟨hrange, h.published.quiet hq, h.noLostWakeup.quiet h.published ht hq⟩
  | fail call =>
    obtain rfl := Option.some.inj hnext
    exact ⟨hrange, ⟨h.published.stored, h.published.notified⟩, h.noLostWakeup⟩
  | abort t =>
    obtain ⟨task, ht, habort⟩ := Option.bind_eq_some_iff.mp hnext
    split at habort
    · obtain rfl := Option.some.inj habort
      have hq : Quiet s (s.setPc t .aborted) t task .aborted :=
        quiet_setPc (.rfl' _) rfl nofun nofun nofun nofun
      exact ⟨hrange, h.published.quiet hq, h.noLostWakeup.quiet h.published ht hq⟩
    · cases habort
  | install ts =>
    obtain rfl := Option.some.inj hnext
    exact ⟨hrange, ⟨h.published.stored, h.published.notified⟩, h.noLostWakeup⟩

/-- As long as every leader notifies in time, nobody is parked on a notification
that has been given. -/
theorem noLostWakeup_of_notifiesInTime [Blake3] {pid : Nat}
    (h : (machine pid NotifiesInTime).Reachable s) : NoLostWakeup s := by
  refine (h.invariant (I := WakeupSafe) ?_ ?_).noLostWakeup
  · intro s hs
    refine ⟨⟨fun hash slot ha ↦ ?_, fun t task slot ht ↦ ?_⟩, ⟨fun t task slot ht ↦ ?_,
      fun slot ds hds ↦ ?_⟩, fun slot ds hds ↦ ?_⟩
    · rw [hs.downloads_eq] at ha
      cases ha
    · rw [hs.tasks_eq] at ht
      cases ht
    · rw [hs.tasks_eq] at ht
      cases ht
    · rw [hs.downloads_eq] at hds
      cases hds
    · rw [hs.downloads_eq] at hds
      cases hds
  · rintro s s' - hsafe ⟨act, hintime, hnext⟩
    exact hsafe.next hintime hnext

theorem noLostWakeup_after_failedDownload :
    letI : Blake3 := Blake3.reference
    ∃ s, idle.nexts 1 NotifiesInTime failedDownload = some s ∧ NoLostWakeup s := by
  let _ : Blake3 := Blake3.reference
  obtain ⟨s, hs⟩ : ∃ s, idle.nexts 1 NotifiesInTime failedDownload = some s :=
    Option.isSome_iff_exists.mp (by decide +kernel)
  exact ⟨s, hs, noLostWakeup_of_notifiesInTime (reachable_nexts (.init idle_idle) hs)⟩

/-- A run in which the leader publishes and notifies between a waiter's read and
the creation of its future. -/
def lateFuture : List SyncAct :=
  [.spawn 0 zeroHash (remoteFile "a" zeroHash), .spawn 0 zeroHash (remoteFile "b" zeroHash),
    .run 0 offline, .run 0 offline, .run 1 offline, .run 1 offline, .run 0 offline,
    .run 0 offline, .run 0 offline, .run 1 offline]

/-- The counterexample: the waiter parks after the notification. -/
theorem not_forall_noLostWakeup :
    letI : Blake3 := Blake3.reference
    ¬ ∀ pid s, (machine pid AbortsNothing).Reachable s → NoLostWakeup s := by
  let _ : Blake3 := Blake3.reference
  intro h
  obtain ⟨s, hs, hlost⟩ := (Option.any_eq_true _ _).mp
    (show (idle.nexts 1 AbortsNothing lateFuture).any (fun s ↦
      s.downloads.slots[0]?.any DownloadSlot.notified
        && s.tasks[1]?.any (·.pc == .parked 0)) by decide +kernel)
  simp only [Bool.and_eq_true, Option.any_eq_true, beq_iff_eq] at hlost
  obtain ⟨⟨ds, hds, hn⟩, task, ht, hpc⟩ := hlost
  exact (h 1 s (reachable_nexts (.init idle_idle) hs) 0 ds hds hn 1 task ht).1 hpc

end SyncSystem

end Lilsync
