import Lilsync.Sync.Download

/-!
# What the steps of a task do to the slots

A task makes a slot, publishes in it, notifies its waiters, or leaves its result
alone (`runTask_cases`).
-/

namespace Lilsync

open Lilsync.Lib

namespace SyncSystem

/-! ## Moving a program counter -/

section SetPc

variable (s : SyncSystem) (t : Nat) (pc : Pc)

@[simp] theorem downloads_setPc : (s.setPc t pc).downloads = s.downloads := rfl

@[simp] theorem result_setPc (slot : Nat) : (s.setPc t pc).result slot = s.result slot := rfl

theorem getElem?_setPc (u : Nat) : (s.setPc t pc).tasks[u]? =
    s.tasks[u]?.map fun task ↦ if t = u then { task with pc } else task := by
  rw [setPc, List.getElem?_modify]
  split <;> simp_all

end SetPc

/-- The results of the slots after a change to one of them. -/
theorem getElem?_modifyState (d : DownloadCoordinator) (slot j : Nat)
    (f : DownloadState → DownloadState) :
    (d.modifyState slot f).slots[j]? =
      d.slots[j]?.map fun s ↦ if slot = j then { s with state := f s.state } else s := by
  rw [DownloadCoordinator.modifyState, List.getElem?_modify]
  split <;> simp_all

/-! ## What the coordinator keeps -/

/-- The slots a hash was active with are the ones it was active with before, and
no slot lost its result or its notification. -/
structure Tends (d d' : DownloadCoordinator) : Prop where
  active : ∀ h slot, d'.active h = some slot → d.active h = some slot
  length_eq : d'.slots.length = d.slots.length
  slots : ∀ (j : Nat) (s' : DownloadSlot), d'.slots[j]? = some s' →
    ∃ s : DownloadSlot, d.slots[j]? = some s ∧ s'.state.result = s.state.result ∧
      s'.notified = s.notified

theorem Tends.rfl' (d : DownloadCoordinator) : Tends d d :=
  ⟨fun _ _ h ↦ h, rfl, fun _ s' h ↦ ⟨s', h, rfl, rfl⟩⟩

theorem tends_modifyState (d : DownloadCoordinator) (slot : Nat)
    {f : DownloadState → DownloadState} (hf : ∀ st, (f st).result = st.result) :
    Tends d (d.modifyState slot f) := by
  refine ⟨fun _ _ h ↦ h, List.length_modify .., fun j s' hs' ↦ ?_⟩
  rw [getElem?_modifyState] at hs'
  obtain ⟨s, hs, rfl⟩ := Option.map_eq_some_iff.mp hs'
  refine ⟨s, hs, ?_⟩
  split
  · exact ⟨hf _, rfl⟩
  · exact ⟨rfl, rfl⟩

theorem tends_claimTarget (d : DownloadCoordinator) (slot : Nat) (entry : Entry) :
    Tends d (d.claimTarget slot entry).1 := by
  rw [DownloadCoordinator.claimTarget]
  split
  · split
    · exact .rfl' d
    · exact tends_modifyState d slot (f := fun st ↦
        { st with claimedTargets := .fromEntry entry :: st.claimedTargets }) fun _ ↦ rfl
  · exact .rfl' d

theorem tends_release (d : DownloadCoordinator) (h : Hash) (slot : Nat) :
    Tends d (d.release h slot).1 := by
  rw [DownloadCoordinator.release]
  split
  · exact .rfl' d
  · next s _ =>
    have hm := tends_modifyState d slot (f := fun st ↦ { st with waiters := s.state.waiters - 1 })
      fun _ ↦ rfl
    dsimp only
    split
    · exact hm
    · split
      · refine ⟨fun h' slot' hactive ↦ hm.active h' slot' ?_, hm.length_eq, hm.slots⟩
        change Function.update d.active h none h' = some slot' at hactive
        by_cases heq : h' = h
        · rw [heq, Function.update_self] at hactive
          cases hactive
        · rwa [Function.update_of_ne heq] at hactive
      · exact hm

/-! ## The steps of a task -/

/-- A step after which the task stands at `pc` and neither a result nor a
notification has appeared: only a leader leads, a task that has just seen no
result was right, and only a task that had seen none is parked. -/
structure Quiet (s s' : SyncSystem) (t : Nat) (task : Task) (pc : Pc) : Prop where
  tends : Tends s.downloads s'.downloads
  tasks_eq : s'.tasks = (s.setPc t pc).tasks
  of_leads : ∀ slot, pc.leads slot → task.pc.leads slot
  sawNone : ∀ slot, pc = .sawNone slot → s.result slot = none
  parked : ∀ slot, pc = .parked slot → task.pc = .sawNone slot
  stored : ∀ slot, pc ≠ .stored slot

variable {s s' : SyncSystem} {t : Nat} {task : Task}

theorem quiet_finish (slot : Nat) (h : Hash) (paths : List PathBuf)
    (result : Except Str (Option PathBuf)) :
    Quiet s (s.finish t slot h paths result) t task
      (.removing ((s.downloads.release h slot).2.toList ++ paths) result) :=
  ⟨tends_release _ _ _, rfl, nofun, nofun, nofun, nofun⟩

/-- The step keeps everything but the program counter and what `Tends` allows. -/
theorem quiet_setPc {pc : Pc} (hd : Tends s.downloads s'.downloads) (ht : s'.tasks = s.tasks)
    (hlead : ∀ slot, pc.leads slot → task.pc.leads slot)
    (hsaw : ∀ slot, pc = .sawNone slot → s.result slot = none)
    (hpark : ∀ slot, pc = .parked slot → task.pc = .sawNone slot)
    (hstored : ∀ slot, pc ≠ .stored slot) : Quiet s (s'.setPc t pc) t task pc :=
  ⟨hd, by rw [setPc, setPc, ht], hlead, hsaw, hpark, hstored⟩

/-- Making a file of its own is a matter between a task and the disk. -/
theorem materialize_fst (s : SyncSystem) (shared own : PathBuf) (weather : Weather) :
    (s.materialize shared own weather).1.downloads = s.downloads ∧
      (s.materialize shared own weather).1.tasks = s.tasks := by
  rw [materialize]
  split
  · split
    · exact ⟨rfl, rfl⟩
    · split <;> exact ⟨rfl, rfl⟩
  · exact ⟨rfl, rfl⟩

/-- What a step of a task can be.  A leader goes on leading until it publishes. -/
theorem runTask_cases [Blake3] {pid : Nat} {weather : Weather}
    (h : s.runTask pid t task weather = some s') :
    (task.pc = .spawned ∧ s.downloads.active task.contentHash = none ∧ s' = s.start t task) ∨
      (∃ slot result, task.pc = .fetched slot result ∧ s' = s.publish t slot result) ∨
      (∃ slot, task.pc = .stored slot ∧ s' = s.notify t slot) ∨
      ∃ pc, Quiet s s' t task pc ∧ ∀ slot, task.pc.leads slot → pc.leads slot := by
  rw [runTask] at h
  cases hpc : task.pc with rw [hpc] at h
  | spawned =>
    dsimp only at h
    split at h
    · obtain rfl := Option.some.inj h
      cases ha : s.downloads.active task.contentHash with
      | none => exact .inl ⟨rfl, rfl, rfl⟩
      | some slot =>
        rw [start, DownloadCoordinator.acquire, ha]
        refine .inr (.inr (.inr ⟨_, quiet_setPc ?_ rfl nofun nofun nofun nofun, nofun⟩))
        exact tends_modifyState _ slot (f := fun st ↦ { st with waiters := st.waiters + 1 })
          fun _ ↦ rfl
    · cases h
  | fetched slot result => exact .inr (.inl ⟨slot, result, rfl, (Option.some.inj h).symm⟩)
  | stored slot => exact .inr (.inr (.inl ⟨slot, rfl, (Option.some.inj h).symm⟩))
  | parked slot => cases h
  | done result => cases h
  | aborted => cases h
  | naming slot =>
    obtain rfl := Option.some.inj h
    refine .inr (.inr (.inr ⟨_, quiet_setPc (.rfl' _) rfl ?_ nofun nofun nofun, fun _ hl ↦ hl⟩))
    rw [hpc]
    exact fun _ hl ↦ hl
  | fetching slot tmp =>
    obtain rfl := Option.some.inj h
    have hquiet (result : Except Str PathBuf) (s' : SyncSystem) (hd : s'.downloads = s.downloads)
        (ht : s'.tasks = s.tasks) :
        Quiet s (s'.setPc t (.fetched slot result)) t task (.fetched slot result) := by
      refine quiet_setPc (hd ▸ .rfl' _) ht ?_ nofun nofun nofun
      rw [hpc]
      exact fun _ hl ↦ hl
    rw [fetch.eq_def]
    split
    · split
      · exact .inr (.inr (.inr ⟨_, hquiet _ _ rfl rfl, fun _ hl ↦ hl⟩))
      · exact .inr (.inr (.inr ⟨_, hquiet _ _ rfl rfl, fun _ hl ↦ hl⟩))
    · exact .inr (.inr (.inr ⟨_, hquiet _ _ rfl rfl, fun _ hl ↦ hl⟩))
  | reading slot =>
    obtain rfl := Option.some.inj h
    refine .inr (.inr (.inr ⟨_, quiet_setPc (.rfl' _) rfl ?_ ?_ ?_ ?_, nofun⟩))
    all_goals
      intro slot' heq
      rw [afterRead] at heq
      split at heq <;> cases heq
    assumption
  | sawNone slot =>
    obtain rfl := Option.some.inj h
    refine .inr (.inr (.inr ⟨_, quiet_setPc (.rfl' _) rfl nofun nofun ?_ nofun, nofun⟩))
    rintro slot' ⟨⟩
    exact hpc
  | failing slot err =>
    obtain rfl := Option.some.inj h
    exact .inr (.inr (.inr ⟨_, quiet_finish _ _ _ _, nofun⟩))
  | declined slot =>
    obtain rfl := Option.some.inj h
    exact .inr (.inr (.inr ⟨_, quiet_finish _ _ _ _, nofun⟩))
  | claiming slot shared =>
    have hd := tends_claimTarget s.downloads slot task.entry
    dsimp only at h
    generalize s.downloads.claimTarget slot task.entry = r at h hd
    obtain ⟨d, claimed⟩ := r
    obtain rfl := Option.some.inj h
    cases claimed <;>
      exact .inr (.inr (.inr ⟨_, quiet_setPc hd rfl nofun nofun nofun nofun, nofun⟩))
  | ownNaming slot shared =>
    obtain rfl := Option.some.inj h
    exact .inr (.inr (.inr ⟨_, quiet_setPc (.rfl' _) rfl nofun nofun nofun nofun, nofun⟩))
  | materializing slot shared own =>
    obtain rfl := Option.some.inj h
    have hkeep := materialize_fst s shared own weather
    exact .inr (.inr (.inr ⟨_, quiet_setPc (hkeep.1 ▸ .rfl' _) hkeep.2 nofun nofun nofun nofun,
      nofun⟩))
  | materialized slot own result =>
    cases result <;> obtain rfl := Option.some.inj h <;>
      exact .inr (.inr (.inr ⟨_, quiet_finish _ _ _ _, nofun⟩))
  | removing paths result =>
    cases paths <;> obtain rfl := Option.some.inj h <;>
      exact .inr (.inr (.inr ⟨_, quiet_setPc (.rfl' _) rfl nofun nofun nofun nofun, nofun⟩))

/-! ## The other steps -/

/-- A task that finds no slot makes one and leads it. -/
theorem start_of_active_eq_none (h : s.downloads.active task.contentHash = none) :
    s.start t task = SyncSystem.setPc { s with downloads := ⟨
      Function.update s.downloads.active task.contentHash (some s.downloads.slots.length),
      s.downloads.slots ++ [⟨⟨1, [], none⟩, false⟩]⟩ } t (.naming s.downloads.slots.length) := by
  rw [start, DownloadCoordinator.acquire, h]
  rfl

theorem result_publish (r : Except Str PathBuf) {slot : Nat}
    (hslot : slot < s.downloads.slots.length) (j : Nat) :
    (s.publish t slot r).result j = if slot = j then some r else s.result j := by
  rw [result, publish, downloads_setPc, getElem?_modifyState, result]
  by_cases heq : slot = j
  · subst heq
    rw [List.getElem?_eq_getElem hslot]
    simp
  · simp [heq]

theorem leads_wake (pc : Pc) (slot j : Nat) : (pc.wake slot).leads j = pc.leads j := by
  cases pc <;> try rfl
  rw [Pc.wake]
  split <;> rfl

theorem getElem?_notify (slot u : Nat) : (s.notify t slot).tasks[u]? =
    s.tasks[u]?.map fun task ↦
      { task with pc := if t = u then .reading slot else task.pc.wake slot } := by
  rw [notify, getElem?_setPc, List.getElem?_map, Option.map_map]
  congr 1
  funext task
  rw [Function.comp_apply]
  split <;> rfl

theorem getElem?_slots_notify (slot j : Nat) : (s.notify t slot).downloads.slots[j]? =
    s.downloads.slots[j]?.map fun ds ↦ if slot = j then { ds with notified := true } else ds := by
  rw [notify, downloads_setPc, List.getElem?_modify]
  split <;> simp_all

theorem result_notify (slot j : Nat) : (s.notify t slot).result j = s.result j := by
  rw [result, getElem?_slots_notify, result]
  cases s.downloads.slots[j]? with
  | none => rfl
  | some ds =>
    rw [Option.map_some, Option.bind_some, Option.bind_some]
    split <;> rfl

/-- An old element or the new one. -/
theorem getElem?_of_append {l : List Task} {task' : Task} {u : Nat}
    (h : (l ++ [task])[u]? = some task') : l[u]? = some task' ∨ task' = task := by
  rw [List.getElem?_append] at h
  split at h
  · exact .inl h
  · rw [List.getElem?_singleton] at h
    split at h <;> cases h
    exact .inr rfl

/-! ## References in range -/

/-- The references of the coordinator and of the leaders are good. -/
structure SlotsInRange (s : SyncSystem) : Prop where
  active : ∀ h slot, s.downloads.active h = some slot → slot < s.downloads.slots.length
  leads : ∀ (t : Nat) (task : Task) slot, s.tasks[t]? = some task → task.pc.leads slot →
    slot < s.downloads.slots.length

namespace SlotsInRange

/-- Tasks that lead after a step led before it, and there are as many slots. -/
theorem of_moves (h : SlotsInRange s) (ht : s.tasks[t]? = some task) {pc : Pc}
    (hactive : ∀ h slot, s'.downloads.active h = some slot → s.downloads.active h = some slot)
    (hlen : s'.downloads.slots.length = s.downloads.slots.length)
    (htasks : s'.tasks = (s.setPc t pc).tasks) (hpc : ∀ slot, pc.leads slot → task.pc.leads slot) :
    SlotsInRange s' := by
  refine ⟨fun hash slot ha ↦ ?_, fun u task' slot hu hl ↦ ?_⟩
  · rw [hlen]
    exact h.active _ _ (hactive _ _ ha)
  · rw [hlen]
    rw [htasks, getElem?_setPc] at hu
    obtain ⟨task₀, hu₀, rfl⟩ := Option.map_eq_some_iff.mp hu
    split at hl
    · next heq =>
      subst heq
      rw [ht] at hu₀
      exact h.leads _ _ _ ht (hpc _ hl)
    · exact h.leads _ _ _ hu₀ hl

theorem start (h : SlotsInRange s) (ha : s.downloads.active task.contentHash = none) :
    SlotsInRange (s.start t task) := by
  rw [start_of_active_eq_none ha]
  refine ⟨fun hash slot hs ↦ ?_, fun u task' slot hu hl ↦ ?_⟩
  · change Function.update s.downloads.active task.contentHash _ hash = some slot at hs
    change slot < (s.downloads.slots ++ [_]).length
    rw [List.length_append, List.length_singleton]
    by_cases heq : hash = task.contentHash
    · rw [heq, Function.update_self] at hs
      rw [← Option.some.inj hs]
      exact Nat.lt_succ_self _
    · rw [Function.update_of_ne heq] at hs
      exact Nat.lt_succ_of_lt (h.active _ _ hs)
  · change slot < (s.downloads.slots ++ [_]).length
    rw [List.length_append, List.length_singleton]
    rw [getElem?_setPc] at hu
    obtain ⟨task₀, hu₀, rfl⟩ := Option.map_eq_some_iff.mp hu
    split at hl
    · rw [← beq_iff_eq.mp hl]
      exact Nat.lt_succ_self _
    · exact Nat.lt_succ_of_lt (h.leads _ _ _ hu₀ hl)

theorem notify (h : SlotsInRange s) {slot : Nat} : SlotsInRange (s.notify t slot) := by
  have hlen : (s.notify t slot).downloads.slots.length = s.downloads.slots.length :=
    List.length_modify ..
  refine ⟨fun hash j ha ↦ ?_, fun u task' j hu hl ↦ ?_⟩
  · rw [hlen]
    exact h.active _ _ ha
  · rw [hlen]
    rw [getElem?_notify] at hu
    obtain ⟨task₀, hu₀, rfl⟩ := Option.map_eq_some_iff.mp hu
    dsimp only at hl
    split at hl
    · cases hl
    · rw [leads_wake] at hl
      exact h.leads _ _ _ hu₀ hl

variable [Blake3] {pid : Nat} {weather : Weather}

theorem runTask (h : SlotsInRange s) (ht : s.tasks[t]? = some task)
    (hrun : s.runTask pid t task weather = some s') : SlotsInRange s' := by
  rcases runTask_cases hrun with ⟨-, ha, rfl⟩ | ⟨slot, r, hpc, rfl⟩ | ⟨slot, hpc, rfl⟩ | ⟨pc, hq, -⟩
  · exact h.start ha
  · exact h.of_moves ht (fun _ _ ha ↦ ha) (List.length_modify ..) rfl nofun
  · exact h.notify
  · exact h.of_moves ht hq.tends.active hq.tends.length_eq hq.tasks_eq hq.of_leads

theorem next (h : SlotsInRange s) {act : SyncAct} (hnext : s.next pid act = some s') :
    SlotsInRange s' := by
  rw [SyncSystem.next.eq_def] at hnext
  split at hnext
  · split at hnext
    · cases hnext
    · obtain rfl := Option.some.inj hnext
      refine ⟨h.active, fun u task slot hu hl ↦ ?_⟩
      rcases getElem?_of_append hu with hu | rfl
      · exact h.leads _ _ _ hu hl
      · cases hl
  · obtain ⟨task, ht, hrun⟩ := Option.bind_eq_some_iff.mp hnext
    exact h.runTask ht hrun
  · obtain rfl := Option.some.inj hnext
    exact ⟨h.active, h.leads⟩
  · obtain ⟨task, ht, habort⟩ := Option.bind_eq_some_iff.mp hnext
    split at habort
    · obtain rfl := Option.some.inj habort
      exact h.of_moves ht (fun _ _ ha ↦ ha) rfl rfl nofun
    · cases habort
  · obtain rfl := Option.some.inj hnext
    exact ⟨h.active, h.leads⟩

end SlotsInRange

theorem Tends.result_eq (h : Tends s.downloads s'.downloads) (slot : Nat) :
    s'.result slot = s.result slot := by
  rw [result, result]
  cases hs' : s'.downloads.slots[slot]? with
  | some ds' =>
    obtain ⟨ds, hs, hr, -⟩ := h.slots slot ds' hs'
    rw [hs]
    exact hr
  | none =>
    rw [List.getElem?_eq_none_iff, h.length_eq, ← List.getElem?_eq_none_iff] at hs'
    rw [hs']

end SyncSystem

end Lilsync
