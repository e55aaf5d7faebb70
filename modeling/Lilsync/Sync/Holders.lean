import Lilsync.Lib.Leases
import Lilsync.Sync.Slots

/-!
# Who holds a slot

A task holds a slot from `acquire` to `release`, so tasks and coordinator are
clients and counted slots.  As long as no task is aborted, the slot a task holds
is the active one of its object.
-/

namespace Lilsync

open Lilsync.Lib

/-- The slot the task has acquired and not released. -/
def Pc.holds : Pc → Option Nat
  | .naming slot | .fetching slot _ | .fetched slot _ | .stored slot | .reading slot
  | .sawNone slot | .parked slot | .failing slot _ | .claiming slot _ | .declined slot
  | .ownNaming slot _ | .materializing slot _ _ | .materialized slot _ _ => some slot
  | .spawned | .removing .. | .done _ | .aborted => none

/-- The slot that the task releases next. -/
def Pc.releases : Pc → Option Nat
  | .failing slot _ | .declined slot | .materialized slot _ _ => some slot
  | _ => none

theorem Pc.holds_of_leads {pc : Pc} {slot : Nat} (h : pc.leads slot) : pc.holds = some slot := by
  cases pc <;> first | exact congrArg some (beq_iff_eq.mp h) | cases h

theorem Pc.holds_of_releases {pc : Pc} {slot : Nat} (h : pc.releases = some slot) :
    pc.holds = some slot := by
  cases pc <;> first | exact h | cases h

theorem Pc.holds_wake (pc : Pc) (slot : Nat) : (pc.wake slot).holds = pc.holds := by
  cases pc <;> try rfl
  rw [Pc.wake]
  split <;> rfl

namespace SyncSystem

variable {s s' : SyncSystem} {t : Nat} {task : Task}

/-- The coordinator as counted slots, and the tasks as their clients. -/
def leases (s : SyncSystem) : Leases Hash where
  active := s.downloads.active
  counts := s.downloads.slots.map fun slot ↦ slot.state.waiters
  clients := s.tasks.map fun task ↦ (task.contentHash, task.pc.holds)

/-! ## What a step does to the counts -/

theorem getElem?_clients (ht : s.tasks[t]? = some task) :
    s.leases.clients[t]? = some (task.contentHash, task.pc.holds) := by
  rw [leases, List.getElem?_map, ht]
  rfl

/-- A task that moves and holds what it held before. -/
theorem clients_setPc (ht : s.tasks[t]? = some task) (pc : Pc) :
    (s.setPc t pc).tasks.map (fun task ↦ (task.contentHash, task.pc.holds)) =
      s.leases.clients.set t (task.contentHash, pc.holds) := by
  refine List.ext_getElem? fun u ↦ ?_
  rw [List.getElem?_map, getElem?_setPc, List.getElem?_set, leases, List.getElem?_map,
    List.length_map]
  by_cases htu : t = u
  · subst htu
    obtain ⟨hlt, -⟩ := List.getElem?_eq_some_iff.mp ht
    rw [ht, if_pos rfl, if_pos hlt]
    simp
  · rw [if_neg htu]
    simp [htu]

theorem set_clients_self (ht : s.tasks[t]? = some task) {held : Option Nat}
    (h : held = task.pc.holds) :
    s.leases.clients.set t (task.contentHash, held) = s.leases.clients := by
  refine List.ext_getElem? fun u ↦ ?_
  rw [List.getElem?_set]
  by_cases htu : t = u
  · subst htu
    obtain ⟨hlt, -⟩ := List.getElem?_eq_some_iff.mp (getElem?_clients ht)
    rw [if_pos rfl, if_pos hlt, getElem?_clients ht, h]
  · rw [if_neg htu]

theorem counts_modifyState (d : DownloadCoordinator) (slot : Nat)
    (f : DownloadState → DownloadState) (g : Nat → Nat) (hf : ∀ st, (f st).waiters = g st.waiters) :
    (d.modifyState slot f).slots.map (fun s ↦ s.state.waiters) =
      (d.slots.map fun s ↦ s.state.waiters).modify slot g := by
  refine List.ext_getElem? fun j ↦ ?_
  rw [List.getElem?_map, getElem?_modifyState, List.getElem?_modify, List.getElem?_map]
  cases d.slots[j]? with
  | none => rfl
  | some ds =>
    simp only [Option.map_some, Option.map_eq_map]
    split
    · rw [hf]
    · rfl

/-- A change of the state of a slot that leaves its count alone. -/
theorem counts_modifyState_of_eq (d : DownloadCoordinator) (slot : Nat)
    {f : DownloadState → DownloadState} (hf : ∀ st, (f st).waiters = st.waiters) :
    (d.modifyState slot f).slots.map (fun s ↦ s.state.waiters) =
      d.slots.map fun s ↦ s.state.waiters := by
  rw [counts_modifyState d slot f id hf, List.modify_id]

theorem leases_start (ht : s.tasks[t]? = some task) :
    (s.start t task).leases = s.leases.acquire t task.contentHash := by
  have hclients := @clients_setPc s t task ht
  cases ha : s.downloads.active task.contentHash with
  | some slot =>
    rw [start, DownloadCoordinator.acquire, ha, Leases.acquire]
    simp only [leases, ha]
    refine congrArg₂ (Leases.mk _) ?_ (hclients (.reading slot))
    exact counts_modifyState _ slot _ (· + 1) fun _ ↦ rfl
  | none =>
    rw [start_of_active_eq_none ha, Leases.acquire]
    simp only [leases, ha, List.length_map]
    refine congrArg₂ (Leases.mk _) ?_ (hclients (.naming _))
    exact List.map_append

theorem leases_finish (ht : s.tasks[t]? = some task) (slot : Nat) (paths : List PathBuf)
    (r : Except Str (Option PathBuf)) : (s.finish t slot task.contentHash paths r).leases =
      s.leases.release t task.contentHash slot := by
  have hclients := @clients_setPc s t task ht
    (.removing ((s.downloads.release task.contentHash slot).2.toList ++ paths) r)
  have hcounts : (s.downloads.release task.contentHash slot).1.slots.map (fun s ↦ s.state.waiters) =
        s.leases.counts.modify slot (· - 1) ∧
      (s.downloads.release task.contentHash slot).1.active =
        (s.leases.release t task.contentHash slot).active := by
    rw [DownloadCoordinator.release, Leases.release]
    cases hs : s.downloads.slots[slot]? with
    | none =>
      have hlen := List.getElem?_eq_none_iff.mp hs
      have hlast : ¬ s.leases.IsLast task.contentHash slot := by
        simp [Leases.IsLast, leases, hs]
      dsimp only
      rw [if_neg hlast, List.modify_eq_self (by rw [leases, List.length_map]; exact hlen)]
      exact ⟨rfl, rfl⟩
    | some ds =>
      have hmodify : (s.downloads.modifyState slot fun st ↦
          { st with waiters := ds.state.waiters - 1 }).slots.map (fun s ↦ s.state.waiters) =
            s.leases.counts.modify slot (· - 1) := by
        refine List.ext_getElem? fun j ↦ ?_
        rw [List.getElem?_map, getElem?_modifyState, List.getElem?_modify, leases,
          List.getElem?_map]
        by_cases hj : slot = j
        · rw [← hj, hs]
          simp
        · simp [hj]
      have hlast : s.leases.IsLast task.contentHash slot ↔ ds.state.waiters - 1 = 0 ∧
          s.downloads.active task.contentHash = some slot := by
        simp [Leases.IsLast, leases, hs]
      dsimp only
      by_cases hw : ds.state.waiters - 1 = 0
      · rw [if_neg (not_not.mpr hw)]
        by_cases ha : s.downloads.active task.contentHash = some slot
        · rw [if_pos (hlast.mpr ⟨hw, ha⟩)]
          simp only [DownloadCoordinator.modifyState, ha, ↓reduceIte] at hmodify ⊢
          exact ⟨hmodify, rfl⟩
        · rw [if_neg fun h ↦ ha (hlast.mp h).2]
          simp only [DownloadCoordinator.modifyState, ha, ↓reduceIte] at hmodify ⊢
          exact ⟨hmodify, rfl⟩
      · rw [if_pos hw, if_neg fun h ↦ hw (hlast.mp h).1]
        exact ⟨hmodify, rfl⟩
  rw [finish, Leases.release]
  exact Leases.ext hcounts.2 hcounts.1 hclients

/-- A task that moves and holds what it held, over a coordinator with the same counts. -/
theorem leases_setPc {s₁ : SyncSystem} (ht : s.tasks[t]? = some task) {pc : Pc}
    (htasks : s₁.tasks = s.tasks) (hactive : s₁.downloads.active = s.downloads.active)
    (hcounts : s₁.downloads.slots.map (fun s ↦ s.state.waiters) = s.leases.counts)
    (hpc : pc.holds = task.pc.holds) : (s₁.setPc t pc).leases = s.leases := by
  have hclients := @clients_setPc s₁ t task (htasks ▸ ht) pc
  have hself : s₁.leases.clients = s.leases.clients := by rw [leases, leases, htasks]
  rw [hself, set_clients_self ht hpc] at hclients
  exact Leases.ext hactive hcounts hclients

theorem leases_notify (ht : s.tasks[t]? = some task) {slot : Nat} (hpc : task.pc = .stored slot) :
    (s.notify t slot).leases = s.leases := by
  have hcounts : (s.notify t slot).downloads.slots.map (fun s ↦ s.state.waiters) =
      s.leases.counts := by
    refine List.ext_getElem? fun j ↦ ?_
    rw [List.getElem?_map, getElem?_slots_notify, leases, List.getElem?_map, Option.map_map]
    congr 1
    funext ds
    rw [Function.comp_apply]
    split <;> rfl
  have hclients : (s.notify t slot).leases.clients = s.leases.clients := by
    refine List.ext_getElem? fun u ↦ ?_
    rw [leases, List.getElem?_map, getElem?_notify, leases, List.getElem?_map]
    cases hu : s.tasks[u]? with
    | none => rfl
    | some task' =>
      simp only [Option.map_some, Option.some.injEq, Prod.mk.injEq, true_and]
      split
      · next heq =>
        obtain rfl : task = task' := Option.some.inj (ht.symm.trans (heq ▸ hu))
        rw [hpc]
        rfl
      · exact Pc.holds_wake _ _
  exact Leases.ext rfl hcounts hclients

/-- A step of a task acquires its slot, releases it, or leaves it as it is. -/
theorem runTask_leases [Blake3] {pid : Nat} {weather : Weather} (ht : s.tasks[t]? = some task)
    (h : s.runTask pid t task weather = some s') :
    (task.pc = .spawned ∧ s' = s.start t task) ∨
      (∃ slot paths r, task.pc.releases = some slot ∧
        s' = s.finish t slot task.contentHash paths r) ∨
      task.pc ≠ .spawned ∧ task.pc.releases = none ∧ s'.leases = s.leases := by
  rw [runTask] at h
  cases hpc : task.pc with rw [hpc] at h
  | spawned =>
    dsimp only at h
    split at h <;> cases h
    exact .inl ⟨rfl, rfl⟩
  | failing slot err => exact .inr (.inl ⟨slot, _, _, rfl, (Option.some.inj h).symm⟩)
  | declined slot => exact .inr (.inl ⟨slot, _, _, rfl, (Option.some.inj h).symm⟩)
  | materialized slot own r =>
    cases r <;> exact .inr (.inl ⟨slot, _, _, rfl, (Option.some.inj h).symm⟩)
  | parked slot => cases h
  | done r => cases h
  | aborted => cases h
  | stored slot =>
    obtain rfl := Option.some.inj h
    exact .inr (.inr ⟨by simp, rfl, leases_notify ht hpc⟩)
  | fetched slot r =>
    obtain rfl := Option.some.inj h
    refine .inr (.inr ⟨by simp, rfl, leases_setPc ht rfl rfl ?_ (by rw [hpc]; rfl)⟩)
    exact counts_modifyState_of_eq _ slot (f := fun st ↦ { st with result := some r }) fun _ ↦ rfl
  | claiming slot shared =>
    have hkeep : (s.downloads.claimTarget slot task.entry).1.active = s.downloads.active ∧
        (s.downloads.claimTarget slot task.entry).1.slots.map (fun s ↦ s.state.waiters) =
          s.leases.counts := by
      rw [DownloadCoordinator.claimTarget]
      split
      · split
        · exact ⟨rfl, rfl⟩
        · refine ⟨rfl, counts_modifyState_of_eq _ slot (f := fun st ↦ { st with
            claimedTargets := .fromEntry task.entry :: st.claimedTargets }) fun _ ↦ rfl⟩
      · exact ⟨rfl, rfl⟩
    dsimp only at h
    generalize s.downloads.claimTarget slot task.entry = r at h hkeep
    obtain ⟨d, claimed⟩ := r
    obtain rfl := Option.some.inj h
    refine .inr (.inr ⟨by simp, rfl, leases_setPc ht rfl hkeep.1 hkeep.2 ?_⟩)
    rw [hpc]
    cases claimed <;> rfl
  | naming slot | sawNone slot | ownNaming slot shared =>
    obtain rfl := Option.some.inj h
    exact .inr (.inr ⟨by simp, rfl, leases_setPc ht rfl rfl rfl (by rw [hpc]; rfl)⟩)
  | reading slot =>
    obtain rfl := Option.some.inj h
    refine .inr (.inr ⟨by simp, rfl, leases_setPc ht rfl rfl rfl ?_⟩)
    rw [hpc, afterRead]
    split <;> rfl
  | fetching slot tmp =>
    obtain rfl := Option.some.inj h
    rw [fetch.eq_def]
    split
    · split <;> exact .inr (.inr ⟨by simp, rfl, leases_setPc ht rfl rfl rfl (by rw [hpc]; rfl)⟩)
    · exact .inr (.inr ⟨by simp, rfl, leases_setPc ht rfl rfl rfl (by rw [hpc]; rfl)⟩)
  | materializing slot shared own =>
    obtain rfl := Option.some.inj h
    obtain ⟨hd, htasks⟩ := materialize_fst s shared own weather
    refine .inr (.inr ⟨by simp, rfl, leases_setPc ht htasks (congrArg DownloadCoordinator.active hd)
      (congrArg (fun d ↦ d.slots.map fun slot ↦ slot.state.waiters) hd) ?_⟩)
    rw [hpc]
    rfl
  | removing paths r =>
    cases paths <;> obtain rfl := Option.some.inj h <;>
      exact .inr (.inr ⟨by simp, rfl, leases_setPc ht rfl rfl rfl (by rw [hpc]; rfl)⟩)

/-! ## Runs -/

/-- A step is one of the clients, or a client is gone. -/
theorem next_leases [Blake3] {pid : Nat} {act : SyncAct} (hnext : s.next pid act = some s') :
    s'.leases = s.leases ∨ Leases.Step s.leases s'.leases ∨
      ∃ t key, act = .abort t ∧ s'.leases = s.leases.abandon t key := by
  cases act with
  | spawn call contentHash entry =>
    rw [SyncSystem.next] at hnext
    split at hnext <;> cases hnext
    have hclients : s.leases.clients ++ [(contentHash, none)] =
        (s.tasks ++ [(⟨call, contentHash, entry, .spawned⟩ : Task)]).map fun task ↦
          (task.contentHash, task.pc.holds) := by
      rw [List.map_append]
      rfl
    have hstep := Leases.Step.come s.leases contentHash
    rw [hclients] at hstep
    exact .inr (.inl hstep)
  | run t weather =>
    obtain ⟨task, ht, hrun⟩ := Option.bind_eq_some_iff.mp hnext
    have hclient := getElem?_clients ht
    rcases runTask_leases ht hrun with ⟨hpc, rfl⟩ | ⟨slot, paths, r, hpc, rfl⟩ | ⟨-, -, heq⟩
    · rw [hpc] at hclient
      exact .inr (.inl (leases_start ht ▸ .acquire hclient))
    · rw [Pc.holds_of_releases hpc] at hclient
      exact .inr (.inl (leases_finish ht slot paths r ▸ .release hclient))
    · exact .inl heq
  | fail call =>
    obtain rfl := Option.some.inj hnext
    exact .inl rfl
  | abort t =>
    obtain ⟨task, ht, habort⟩ := Option.bind_eq_some_iff.mp hnext
    split at habort <;> cases habort
    exact .inr (.inr ⟨t, task.contentHash, rfl,
      Leases.ext rfl rfl (clients_setPc ht .aborted)⟩)
  | install ts =>
    obtain rfl := Option.some.inj hnext
    exact .inl rfl

/-- Without aborts, the waiters of a slot are the tasks that hold it. -/
theorem counted_next [Blake3] {pid : Nat} {act : SyncAct} (hs : s.leases.Counted)
    (hact : AbortsNothing s act) (hnext : s.next pid act = some s') : s'.leases.Counted := by
  rcases next_leases hnext with heq | hstep | ⟨t, key, rfl, -⟩
  · rw [heq]
    exact hs
  · exact hs.step hstep
  · cases hact

/-- With aborts, a slot is still for one object. -/
theorem keyed_next [Blake3] {pid : Nat} {act : SyncAct} (hs : s.leases.Keyed)
    (hnext : s.next pid act = some s') : s'.leases.Keyed := by
  rcases next_leases hnext with heq | hstep | ⟨t, key, -, heq⟩
  · rw [heq]
    exact hs
  · exact hs.step hstep
  · rw [heq]
    exact hs.abandon t key

theorem Idle.leases_eq (h : s.Idle) : s.leases = .empty := by
  rw [leases, h.downloads_eq, h.tasks_eq]
  rfl

/-- The slot that a task holds is the active one of its object. -/
theorem active_of_holds (hs : s.leases.Counted) (ht : s.tasks[t]? = some task) {slot : Nat}
    (h : task.pc.holds = some slot) : s.downloads.active task.contentHash = some slot :=
  hs.held (List.mem_of_getElem? (h ▸ getElem?_clients ht))

end SyncSystem

end Lilsync
