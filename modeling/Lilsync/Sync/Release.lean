import Lilsync.Sync.Files

/-!
# The release of slots

`Journal` records who was given a slot to lead, who claimed a target of it, and
what `release` returned to whom.  Without aborts, every slot is led by one task
and its shared file is there until the last task has released the slot, which
alone gets the path to remove it (`safelyReleased`).
-/

namespace Lilsync

open Lilsync.Lib Lilsync.Lib.Posix Lilsync.Lib.Posix.Disk

/-- What tasks have done with slots, latest first. -/
structure Journal where
  /-- Which slot was given to whom to lead. -/
  led : List (Nat × Nat)
  /-- Which target of which slot was claimed by whom. -/
  claimed : List (Nat × DownloadTarget × Nat)
  /-- What the release of which slot returned to whom. -/
  released : List (Nat × Nat × Option PathBuf)

namespace Journal

def empty : Journal := ⟨[], [], []⟩

/-- Who was given the slot to lead. -/
def leaders (j : Journal) (slot : Nat) : List Nat :=
  (j.led.filter fun l ↦ l.1 = slot).map Prod.snd

/-- What the releases of the slot returned, and to whom. -/
def releases (j : Journal) (slot : Nat) : List (Nat × Option PathBuf) :=
  (j.released.filter fun r ↦ r.1 = slot).map Prod.snd

theorem releases_cons (j : Journal) (slot slot' t : Nat) (path : Option PathBuf) :
    releases { j with released := (slot, t, path) :: j.released } slot' =
      if slot = slot' then (t, path) :: j.releases slot' else j.releases slot' := by
  rw [releases, List.filter_cons]
  by_cases h : slot = slot'
  · rw [if_pos (decide_eq_true h), if_pos h, List.map_cons, releases]
  · rw [if_neg (by simpa using h), if_neg h, releases]

end Journal

namespace SyncSystem

variable {s s' : SyncSystem} {j : Journal} {t : Nat} {task : Task}

/-- The journal after the next step of a task. -/
def note (s : SyncSystem) (t : Nat) (task : Task) (j : Journal) : Journal where
  led :=
    match task.pc, s.downloads.acquire task.contentHash with
    | .spawned, (_, slot, true) => (slot, t) :: j.led
    | _, _ => j.led
  claimed :=
    match task.pc with
    | .claiming slot _ =>
      if (s.downloads.claimTarget slot task.entry).2 then
        (slot, .fromEntry task.entry, t) :: j.claimed
      else j.claimed
    | _ => j.claimed
  released :=
    match task.pc.releases with
    | some slot => (slot, t, (s.downloads.release task.contentHash slot).2) :: j.released
    | none => j.released

/-- The journal after an action. -/
def record (s : SyncSystem) (j : Journal) : SyncAct → Journal
  | .run t _ =>
    match s.tasks[t]? with
    | some task => s.note t task j
    | none => j
  | _ => j

/-! ## Leaders -/

/-- A slot is led by the task it was given to. -/
structure Leaders (s : SyncSystem) (j : Journal) : Prop where
  led_eq : j.led.map Prod.fst = (List.range s.downloads.slots.length).reverse
  of_leads : ∀ (t : Nat) (task : Task) slot, s.tasks[t]? = some task → task.pc.leads slot →
    (slot, t) ∈ j.led
  leads : ∀ slot t, (slot, t) ∈ j.led → s.result slot = none →
    ∃ task, s.tasks[t]? = some task ∧ task.pc.leads slot

theorem Leaders.lt (h : Leaders s j) {slot : Nat} (hmem : (slot, t) ∈ j.led) :
    slot < s.downloads.slots.length := by
  have hin := List.mem_map_of_mem (f := Prod.fst) hmem
  rw [h.led_eq, List.mem_reverse, List.mem_range] at hin
  exact hin

/-- One task was given the slot. -/
theorem Leaders.leaders_eq (h : Leaders s j) {slot : Nat}
    (hlt : slot < s.downloads.slots.length) : ∃ t, j.leaders slot = [t] := by
  have hone : (j.led.map Prod.fst).count slot = 1 := by
    rw [h.led_eq, List.count_reverse]
    exact List.count_eq_one_of_mem List.nodup_range (List.mem_range.mpr hlt)
  refine List.length_eq_one_iff.mp ?_
  rw [Journal.leaders, List.length_map, ← List.countP_eq_length_filter, ← hone, List.count,
    List.countP_map]
  exact List.countP_congr fun l _ ↦ by simp

theorem mem_led_of_leaders {slot : Nat} (h : j.leaders slot = [t]) {u : Nat} :
    (slot, u) ∈ j.led ↔ u = t := by
  have hmem : u ∈ j.leaders slot ↔ (slot, u) ∈ j.led := by
    simp [Journal.leaders]
  rw [← hmem, h, List.mem_singleton]

/-- One task moves, and leads as far as it leads what has no result. -/
theorem Leaders.move (h : Leaders s j) (ht : s.tasks[t]? = some task) {pc : Pc}
    (htasks : s'.tasks = (s.setPc t pc).tasks)
    (hlen : s'.downloads.slots.length = s.downloads.slots.length)
    (hpc : ∀ slot, pc.leads slot → task.pc.leads slot)
    (hresult : ∀ slot, s'.result slot = none →
      s.result slot = none ∧ (task.pc.leads slot → pc.leads slot)) : Leaders s' j := by
  refine ⟨hlen ▸ h.led_eq, fun u task' slot hu hl ↦ ?_, fun slot u hmem hr ↦ ?_⟩
  · rw [htasks, getElem?_setPc] at hu
    obtain ⟨task₀, hu₀, rfl⟩ := Option.map_eq_some_iff.mp hu
    split at hl
    · next heq =>
      subst heq
      exact h.of_leads t task slot ht (hpc slot hl)
    · exact h.of_leads u task₀ slot hu₀ hl
  · obtain ⟨hr₀, hgo⟩ := hresult slot hr
    obtain ⟨task₀, hu₀, hl⟩ := h.leads slot u hmem hr₀
    rw [htasks, getElem?_setPc, hu₀]
    refine ⟨_, rfl, ?_⟩
    split
    · next heq =>
      subst heq
      obtain rfl : task = task₀ := Option.some.inj (ht.symm.trans hu₀)
      exact hgo hl
    · exact hl

theorem Leaders.start (h : Leaders s j) (ht : s.tasks[t]? = some task) (hpc : task.pc = .spawned)
    (ha : s.downloads.active task.contentHash = none) :
    Leaders (s.start t task) { j with led := (s.downloads.slots.length, t) :: j.led } := by
  rw [start_of_active_eq_none ha]
  refine ⟨?_, fun u task' slot hu hl ↦ ?_, fun slot u hmem hr ↦ ?_⟩
  · change _ = (List.range (s.downloads.slots ++ [_]).length).reverse
    rw [List.length_append, List.length_singleton, List.range_succ, List.reverse_append,
      List.map_cons, h.led_eq]
    rfl
  · rw [getElem?_setPc] at hu
    obtain ⟨task₀, hu₀, rfl⟩ := Option.map_eq_some_iff.mp hu
    split at hl
    · next heq =>
      subst heq
      rw [← beq_iff_eq.mp hl]
      exact List.mem_cons_self
    · exact List.mem_cons_of_mem _ (h.of_leads u task₀ slot hu₀ hl)
  · rw [getElem?_setPc]
    rcases List.mem_cons.mp hmem with heq | hmem
    · cases heq
      exact ⟨_, by rw [ht, Option.map_some, if_pos rfl], beq_self_eq_true _⟩
    · change (s.downloads.slots ++ [_])[slot]?.bind _ = none at hr
      rw [List.getElem?_append_left (h.lt hmem)] at hr
      obtain ⟨task₀, hu₀, hl⟩ := h.leads slot u hmem hr
      refine ⟨_, by rw [hu₀]; rfl, ?_⟩
      split
      · next heq =>
        subst heq
        obtain rfl : task = task₀ := Option.some.inj (ht.symm.trans hu₀)
        rw [hpc] at hl
        cases hl
      · exact hl

theorem Leaders.notify (h : Leaders s j) (ht : s.tasks[t]? = some task) {slot : Nat}
    (hpc : task.pc = .stored slot) : Leaders (s.notify t slot) j := by
  have hlen : (s.notify t slot).downloads.slots.length = s.downloads.slots.length :=
    List.length_modify ..
  refine ⟨hlen ▸ h.led_eq, fun u task' k hu hl ↦ ?_, fun k u hmem hr ↦ ?_⟩
  · rw [getElem?_notify] at hu
    obtain ⟨task₀, hu₀, rfl⟩ := Option.map_eq_some_iff.mp hu
    dsimp only at hl
    split at hl
    · cases hl
    · rw [leads_wake] at hl
      exact h.of_leads u task₀ k hu₀ hl
  · rw [result_notify] at hr
    obtain ⟨task₀, hu₀, hl⟩ := h.leads k u hmem hr
    refine ⟨_, by rw [getElem?_notify, hu₀]; rfl, ?_⟩
    dsimp only
    split
    · next heq =>
      subst heq
      obtain rfl : task = task₀ := Option.some.inj (ht.symm.trans hu₀)
      rw [hpc] at hl
      cases hl
    · rwa [leads_wake]

/-- Only who finds no active slot is given one to lead. -/
theorem led_note (s : SyncSystem) (t : Nat) (task : Task) (j : Journal) :
    (s.note t task j).led =
      if task.pc = .spawned ∧ s.downloads.active task.contentHash = none then
        (s.downloads.slots.length, t) :: j.led
      else j.led := by
  rw [note, DownloadCoordinator.acquire]
  cases ha : s.downloads.active task.contentHash with
  | some slot =>
    rw [if_neg fun h ↦ by cases h.2]
    dsimp only
    cases task.pc <;> rfl
  | none =>
    cases hpc : task.pc with
    | spawned => rw [if_pos ⟨rfl, rfl⟩]
    | _ => rw [if_neg fun h ↦ by cases h.1]

variable [Blake3] {pid : Nat}

theorem Leaders.runTask (h : Leaders s j) (ht : s.tasks[t]? = some task) {weather : Weather}
    (hrun : s.runTask pid t task weather = some s') :
    Leaders s' { j with led := (s.note t task j).led } := by
  rw [led_note]
  split
  · next hnew =>
    rw [SyncSystem.runTask, hnew.1] at hrun
    dsimp only at hrun
    split at hrun <;> cases hrun
    exact h.start ht hnew.1 hnew.2
  · next hold =>
    rcases runTask_cases hrun with
      ⟨hpc, ha, -⟩ | ⟨slot, r, hpc, rfl⟩ | ⟨slot, hpc, rfl⟩ | ⟨pc, hq, hlead⟩
    · exact absurd ⟨hpc, ha⟩ hold
    · have hleads : task.pc.leads slot := by
        rw [hpc]
        exact beq_self_eq_true _
      have hlt := h.lt (h.of_leads t task slot ht hleads)
      refine h.move ht rfl (List.length_modify ..) (by simp [Pc.leads]) fun k hr ↦ ?_
      rw [result_publish r hlt] at hr
      split at hr
      · cases hr
      · next hne =>
        refine ⟨hr, fun hl ↦ absurd ?_ hne⟩
        rw [hpc] at hl
        exact beq_iff_eq.mp hl
    · exact h.notify ht hpc
    · exact h.move ht hq.tasks_eq hq.tends.length_eq hq.of_leads fun k hr ↦
        ⟨hq.tends.result_eq k ▸ hr, hlead k⟩

/-! ## Claims -/

/-- The slots stay, and no target that was claimed is forgotten. -/
def Remembers (d d' : DownloadCoordinator) : Prop :=
  ∀ (slot : Nat) (ds : DownloadSlot), d.slots[slot]? = some ds → ∃ ds', d'.slots[slot]? = some ds' ∧
    ∀ target ∈ ds.state.claimedTargets, target ∈ ds'.state.claimedTargets

omit [Blake3] in
theorem Remembers.rfl' (d : DownloadCoordinator) : Remembers d d :=
  fun _ ds h ↦ ⟨ds, h, fun _ ht ↦ ht⟩

omit [Blake3] in
theorem remembers_modifyState (d : DownloadCoordinator) (slot : Nat)
    {f : DownloadState → DownloadState}
    (hf : ∀ st, ∀ target ∈ st.claimedTargets, target ∈ (f st).claimedTargets) :
    Remembers d (d.modifyState slot f) := by
  intro k ds hds
  rw [getElem?_modifyState, hds]
  refine ⟨_, rfl, fun target htarget ↦ ?_⟩
  split
  · exact hf _ target htarget
  · exact htarget

omit [Blake3] in
theorem remembers_acquire (d : DownloadCoordinator) (contentHash : Hash) :
    Remembers d (d.acquire contentHash).1 := by
  rw [DownloadCoordinator.acquire]
  split
  · next slot _ =>
    exact remembers_modifyState d slot (f := fun st ↦ { st with waiters := st.waiters + 1 })
      fun _ _ h ↦ h
  · intro slot ds hds
    obtain ⟨hlt, -⟩ := List.getElem?_eq_some_iff.mp hds
    exact ⟨ds, (List.getElem?_append_left hlt).trans hds, fun _ h ↦ h⟩

omit [Blake3] in
theorem remembers_claimTarget (d : DownloadCoordinator) (slot : Nat) (entry : Entry) :
    Remembers d (d.claimTarget slot entry).1 := by
  rw [DownloadCoordinator.claimTarget]
  split
  · split
    · exact .rfl' d
    · exact remembers_modifyState d slot (f := fun st ↦ { st with
        claimedTargets := .fromEntry entry :: st.claimedTargets }) fun _ _ h ↦ List.mem_cons_of_mem _ h
  · exact .rfl' d

omit [Blake3] in
theorem remembers_release (d : DownloadCoordinator) (contentHash : Hash) (slot : Nat) :
    Remembers d (d.release contentHash slot).1 := by
  rw [DownloadCoordinator.release]
  split
  · exact .rfl' d
  · next ds _ =>
    have hm := remembers_modifyState d slot (f := fun st ↦ { st with
      waiters := ds.state.waiters - 1 }) fun _ _ h ↦ h
    dsimp only
    split
    · exact hm
    · split <;> exact hm

theorem remembers_runTask {weather : Weather} (hrun : s.runTask pid t task weather = some s') :
    Remembers s.downloads s'.downloads := by
  rw [SyncSystem.runTask] at hrun
  cases hpc : task.pc with rw [hpc] at hrun
  | spawned =>
    dsimp only at hrun
    split at hrun <;> cases hrun
    exact remembers_acquire _ _
  | fetching slot tmp =>
    obtain rfl := Option.some.inj hrun
    rw [fetch.eq_def]
    split
    · split <;> exact .rfl' _
    · exact .rfl' _
  | fetched slot r =>
    obtain rfl := Option.some.inj hrun
    exact remembers_modifyState _ slot (f := fun st ↦ { st with result := some r }) fun _ _ h ↦ h
  | stored slot =>
    obtain rfl := Option.some.inj hrun
    intro k ds hds
    rw [getElem?_slots_notify, hds]
    refine ⟨_, rfl, fun target htarget ↦ ?_⟩
    split <;> exact htarget
  | claiming slot shared =>
    obtain rfl := Option.some.inj hrun
    exact remembers_claimTarget _ _ _
  | materializing slot shared own =>
    obtain rfl := Option.some.inj hrun
    have hd := (materialize_fst s shared own weather).1
    intro k ds hds
    exact ⟨ds, (congrArg (fun d ↦ d.slots[k]?) hd).trans hds, fun _ h ↦ h⟩
  | failing slot err | declined slot =>
    obtain rfl := Option.some.inj hrun
    exact remembers_release _ _ _
  | materialized slot own r =>
    cases r <;> obtain rfl := Option.some.inj hrun <;> exact remembers_release _ _ _
  | removing paths r =>
    cases paths <;> obtain rfl := Option.some.inj hrun <;> exact .rfl' _
  | naming slot | reading slot | sawNone slot | ownNaming slot shared =>
    obtain rfl := Option.some.inj hrun
    exact .rfl' _
  | parked slot => cases hrun
  | done r => cases hrun
  | aborted => cases hrun

/-- Each target of a slot was claimed by one task. -/
structure Claims (s : SyncSystem) (j : Journal) : Prop where
  kept : ∀ c ∈ j.claimed, ∃ ds : DownloadSlot, s.downloads.slots[c.1]? = some ds ∧
    c.2.1 ∈ ds.state.claimedTargets
  nodup : (j.claimed.map fun c ↦ (c.1, c.2.1)).Nodup

omit [Blake3] in
theorem Claims.mono (h : Claims s j) (hd : Remembers s.downloads s'.downloads) : Claims s' j := by
  refine ⟨fun c hc ↦ ?_, h.nodup⟩
  obtain ⟨ds, hds, hmem⟩ := h.kept c hc
  obtain ⟨ds', hds', hkeeps⟩ := hd c.1 ds hds
  exact ⟨ds', hds', hkeeps _ hmem⟩

omit [Blake3] in
/-- A target is claimed when it was not claimed before. -/
theorem claimTarget_eq_true {d : DownloadCoordinator} {slot : Nat} {entry : Entry}
    (h : (d.claimTarget slot entry).2 = true) : ∃ ds ds' : DownloadSlot, d.slots[slot]? = some ds ∧
      DownloadTarget.fromEntry entry ∉ ds.state.claimedTargets ∧
      (d.claimTarget slot entry).1.slots[slot]? = some ds' ∧
      DownloadTarget.fromEntry entry ∈ ds'.state.claimedTargets := by
  rw [DownloadCoordinator.claimTarget] at h ⊢
  cases hds : d.slots[slot]? with
  | none =>
    rw [hds] at h
    cases h
  | some ds =>
    rw [hds] at h
    dsimp only at h ⊢
    split at h
    · cases h
    · next hnot =>
      rw [if_neg hnot, getElem?_modifyState, hds, Option.map_some, if_pos rfl]
      exact ⟨ds, _, rfl, hnot, rfl, List.mem_cons_self⟩

theorem Claims.runTask (h : Claims s j) {weather : Weather}
    (hrun : s.runTask pid t task weather = some s') :
    Claims s' { j with claimed := (s.note t task j).claimed } := by
  have hmono := h.mono (remembers_runTask hrun)
  rw [note]
  dsimp only
  split
  · next slot shared hpc =>
    split
    · next hclaim =>
      obtain ⟨ds, ds', hds, hnew, hds', hmem⟩ := claimTarget_eq_true hclaim
      rw [SyncSystem.runTask, hpc] at hrun
      obtain rfl := Option.some.inj hrun
      refine ⟨fun c hc ↦ ?_, List.nodup_cons.mpr ⟨fun hin ↦ ?_, h.nodup⟩⟩
      · rcases List.mem_cons.mp hc with rfl | hc
        · exact ⟨ds', hds', hmem⟩
        · exact hmono.kept c hc
      · obtain ⟨c, hc, heq⟩ := List.mem_map.mp hin
        obtain ⟨ds₀, hds₀, hold⟩ := h.kept c hc
        rw [(Prod.mk.inj heq).1, hds] at hds₀
        rw [(Prod.mk.inj heq).2, ← Option.some.inj hds₀] at hold
        exact hnew hold
    · exact hmono
  · exact hmono

/-! ## Releases -/

/-- The last release of a slot returned the shared file, and no other did. -/
structure Returned (s : SyncSystem) (j : Journal) : Prop where
  inUse : ∀ h slot, s.downloads.active h = some slot → ∀ r ∈ j.releases slot, r.2 = none
  handedOut : ∀ slot < s.downloads.slots.length, (∀ h, s.downloads.active h ≠ some slot) →
    ∃ t rest, j.releases slot = (t, okPath (s.result slot)) :: rest ∧ ∀ r ∈ rest, r.2 = none
  unused : ∀ slot, s.downloads.slots.length ≤ slot → j.releases slot = []

omit [Blake3] in
/-- The same slots are in use, and the others have their results. -/
theorem Returned.same (h : Returned s j)
    (hactive : s'.downloads.active = s.downloads.active)
    (hlen : s'.downloads.slots.length = s.downloads.slots.length)
    (hresult : ∀ slot, (∀ h, s.downloads.active h ≠ some slot) → s'.result slot = s.result slot) :
    Returned s' j := by
  refine ⟨hactive ▸ h.inUse, fun slot hlt hno ↦ ?_, hlen ▸ h.unused⟩
  rw [hactive] at hno
  rw [hresult slot hno]
  exact h.handedOut slot (hlen ▸ hlt) hno

omit [Blake3] in
theorem Returned.start (h : Returned s j) : Returned (s.start t task) j := by
  cases ha : s.downloads.active task.contentHash with
  | some slot =>
    have hd := tends_modifyState s.downloads slot (f := fun st ↦ { st with
      waiters := st.waiters + 1 }) fun _ ↦ rfl
    rw [SyncSystem.start, DownloadCoordinator.acquire, ha]
    exact h.same rfl (List.length_modify ..) fun k _ ↦
      @Tends.result_eq s { s with downloads := s.downloads.modifyState slot fun st ↦
        { st with waiters := st.waiters + 1 } } hd k
  | none =>
    rw [start_of_active_eq_none ha]
    have hlen : (s.downloads.slots ++ [(⟨⟨1, [], none⟩, false⟩ : DownloadSlot)]).length =
        s.downloads.slots.length + 1 := by
      rw [List.length_append, List.length_singleton]
    refine ⟨fun hash slot hs ↦ ?_, fun slot hlt hno ↦ ?_, fun slot hle ↦ h.unused slot ?_⟩
    · rcases Leases.of_update_some hs with ⟨-, rfl⟩ | ⟨-, hs⟩
      · rw [h.unused _ le_rfl]
        exact List.forall_mem_nil _
      · exact h.inUse hash slot hs
    · change slot < (s.downloads.slots ++ [_]).length at hlt
      change ∀ hash, Function.update s.downloads.active _ _ hash ≠ some slot at hno
      have hne : slot ≠ s.downloads.slots.length := by
        rintro rfl
        exact hno task.contentHash (Function.update_self ..)
      have hlt' : slot < s.downloads.slots.length := by omega
      have hr : (s.downloads.slots ++ [(⟨⟨1, [], none⟩, false⟩ : DownloadSlot)])[slot]?.bind
          (fun ds ↦ ds.state.result) = s.result slot := by
        rw [List.getElem?_append_left hlt', result]
      rw [result_setPc, result, hr]
      refine h.handedOut slot hlt' fun hash hs ↦ hno hash ?_
      refine (Function.update_of_ne ?_ ..).trans hs
      rintro rfl
      rw [ha] at hs
      cases hs
    · exact (Nat.le_succ _).trans (hlen.symm.trans_le hle)

omit [Blake3] in
/-- A release that is not the last returns nothing, and the last one the shared file. -/
theorem Returned.finish (h : Returned s j) (hc : s.leases.Counted) (ht : s.tasks[t]? = some task)
    {slot : Nat} (hpc : task.pc.holds = some slot) (paths : List PathBuf)
    (r : Except Str (Option PathBuf)) :
    Returned (s.finish t slot task.contentHash paths r) { j with
      released := (slot, t, (s.downloads.release task.contentHash slot).2) :: j.released } := by
  have hactive := active_of_holds hc ht hpc
  have hleases := leases_finish ht slot paths r
  have hlen : (s.finish t slot task.contentHash paths r).downloads.slots.length =
      s.downloads.slots.length := (tends_release _ _ _).length_eq
  have hresult := @Tends.result_eq s (s.finish t slot task.contentHash paths r)
    (tends_release s.downloads task.contentHash slot)
  have hactive' : (s.finish t slot task.contentHash paths r).downloads.active =
      if s.leases.IsLast task.contentHash slot then
        Function.update s.downloads.active task.contentHash none
      else s.downloads.active := congrArg Leases.active hleases
  refine ⟨fun hash k hs ↦ ?_, fun k hlt hno ↦ ?_, fun k hle ↦ ?_⟩
  · rw [Journal.releases_cons, release_snd]
    rw [hactive'] at hs
    split at hs
    · next hlast =>
      -- the slot is no longer the active one
      obtain ⟨hne, hs⟩ := Leases.of_update_none hs
      rw [if_neg fun heq : slot = k ↦ hne (hc.active_inj hs (heq ▸ hactive))]
      exact h.inUse hash k hs
    · next hlast =>
      rw [if_neg hlast]
      split
      · exact List.forall_mem_cons.mpr ⟨rfl, h.inUse hash k hs⟩
      · exact h.inUse hash k hs
  · rw [hlen] at hlt
    rw [hactive'] at hno
    rw [Journal.releases_cons, release_snd, hresult]
    split at hno
    · next hlast =>
      rw [if_pos hlast]
      split
      · next heq =>
        subst heq
        exact ⟨t, _, rfl, h.inUse _ slot hactive⟩
      · next hne =>
        refine h.handedOut k hlt fun hash hs ↦ hno hash ?_
        refine (Function.update_of_ne ?_ ..).trans hs
        rintro rfl
        exact hne (Option.some.inj (hactive.symm.trans hs))
    · next hlast =>
      rw [if_neg fun heq : slot = k ↦ hno task.contentHash (heq ▸ hactive)]
      exact h.handedOut k hlt hno
  · rw [hlen] at hle
    rw [Journal.releases_cons, if_neg fun heq ↦ ?_]
    · exact h.unused k hle
    · have hlt := hc.active_lt hactive
      rw [leases, List.length_map] at hlt
      omega

/-- A result is published only for a slot that is in use. -/
theorem result_eq_of_inactive (hc : s.leases.Counted) (ht : s.tasks[t]? = some task)
    {weather : Weather} (hrun : s.runTask pid t task weather = some s')
    (hold : task.pc ≠ .spawned) {slot : Nat} (hno : ∀ h, s.downloads.active h ≠ some slot) :
    s'.result slot = s.result slot := by
  rcases runTask_cases hrun with
    ⟨hpc, -, -⟩ | ⟨k, r, hpc, rfl⟩ | ⟨k, hpc, rfl⟩ | ⟨pc, hq, -⟩
  · exact absurd hpc hold
  · have hholds : task.pc.holds = some k := by
      rw [hpc]
      rfl
    have hactive := active_of_holds hc ht hholds
    have hlt := hc.active_lt hactive
    rw [leases, List.length_map] at hlt
    rw [result_publish r hlt, if_neg]
    rintro rfl
    exact hno _ hactive
  · exact result_notify k slot
  · exact hq.tends.result_eq slot

theorem Returned.runTask (h : Returned s j) (hc : s.leases.Counted) (ht : s.tasks[t]? = some task)
    {weather : Weather} (hrun : s.runTask pid t task weather = some s') :
    Returned s' { j with released := (s.note t task j).released } := by
  rw [note]
  dsimp only
  rcases runTask_leases ht hrun with ⟨hpc, rfl⟩ | ⟨slot, paths, r, hpc, rfl⟩ | ⟨hold, hpc, heq⟩
  · rw [hpc]
    exact h.start
  · rw [hpc]
    exact h.finish hc ht (Pc.holds_of_releases hpc) paths r
  · rw [hpc]
    refine h.same (congrArg Leases.active heq) ?_ fun slot hno ↦
      result_eq_of_inactive hc ht hrun hold hno
    have hlen := congrArg (fun l ↦ l.counts.length) heq
    rwa [leases, leases, List.length_map, List.length_map] at hlen

/-! ## Shared files -/

/-- The shared files of slots in use are there, and only the others are removed. -/
structure InPlace (s : SyncSystem) (owner : PathBuf → Nat) : Prop where
  files : ∀ slot path h, s.FileOf slot path → s.downloads.active h = some slot →
    ∃ i, s.disk.Names i path
  removes : ∀ (t : Nat) (task : Task), s.tasks[t]? = some task → ∀ path ∈ task.pc.removes,
    path ∈ s.sharedTmpPaths →
      owner path < s.downloads.slots.length ∧ ∀ h, s.downloads.active h ≠ some (owner path)

omit [Blake3] in
/-- A slot in use is there. -/
theorem lt_of_active (hc : s.leases.Counted) {hash : Hash} {slot : Nat}
    (h : s.downloads.active hash = some slot) : slot < s.downloads.slots.length := by
  have hlt := hc.active_lt h
  rwa [leases, List.length_map] at hlt

/-- A slot that is in use after a step was in use before it, or is new. -/
theorem active_of_next (hc : s.leases.Counted) {act : SyncAct} (hnext : s.next pid act = some s')
    (hact : AbortsNothing s act) {hash : Hash} {slot : Nat}
    (h : s'.downloads.active hash = some slot) :
    (∃ hash', s.downloads.active hash' = some slot) ∨ slot = s.downloads.slots.length := by
  have hserves : s'.leases.Serves slot hash := .inl h
  rcases next_leases hnext with heq | hstep | ⟨t, key, rfl, -⟩
  · exact .inl ⟨hash, (congrArg (Leases.active · hash) heq).symm.trans h⟩
  · obtain ⟨key₀, hold⟩ := hstep.serves
    rcases hold hserves with (ha | hmem) | ⟨hlen, -⟩
    · exact .inl ⟨hash, ha⟩
    · exact .inl ⟨hash, hc.held hmem⟩
    · refine .inr ?_
      rwa [leases, List.length_map] at hlen
  · cases hact

theorem length_le_of_next {act : SyncAct} (hnext : s.next pid act = some s') :
    s.downloads.slots.length ≤ s'.downloads.slots.length := by
  have hle : s.leases.counts.length ≤ s'.leases.counts.length := by
    rcases next_leases hnext with heq | hstep | ⟨t, key, -, heq⟩
    · rw [heq]
    · exact hstep.length_le
    · rw [heq]
      exact le_rfl
  rwa [leases, leases, List.length_map, List.length_map] at hle

/-- What a task removes after a step it removed before, or it has just released
its slot. -/
theorem FileStep.removes (h : FileStep pid s t task s') (ht : s.tasks[t]? = some task) {u : Nat}
    {task' : Task} (hu : s'.tasks[u]? = some task') {path : PathBuf} (hp : path ∈ task'.pc.removes) :
    (∃ task₀, s.tasks[u]? = some task₀ ∧ path ∈ task₀.pc.removes) ∨
      (∃ slot, task.pc.releases = some slot ∧ s.leases.IsLast task.contentHash slot ∧
        s.result slot = some (.ok path)) ∨ ownTmp task.pc = some path := by
  have hmove {pc : Pc} {s₁ : SyncSystem} (hu : s₁.tasks[u]? = some task')
      (htasks : s₁.tasks = (s.setPc t pc).tasks) :
      (∃ task₀, s.tasks[u]? = some task₀ ∧ path ∈ task₀.pc.removes) ∨
        t = u ∧ path ∈ pc.removes := by
    rw [htasks, getElem?_setPc] at hu
    obtain ⟨task₀, hu₀, rfl⟩ := Option.map_eq_some_iff.mp hu
    split at hp
    · next heq => exact .inr ⟨heq, hp⟩
    · exact .inl ⟨task₀, hu₀, hp⟩
  cases h with
  | naming hpc => exact .inl ((hmove hu rfl).resolve_right nofun)
  | fetched hpc hdigest => exact .inl ((hmove hu rfl).resolve_right nofun)
  | ownNaming hpc => exact .inl ((hmove hu rfl).resolve_right nofun)
  | linked hpc hi => exact .inl ((hmove hu rfl).resolve_right nofun)
  | copied hpc hi => exact .inl ((hmove hu rfl).resolve_right nofun)
  | finish hpc hfile hown hpaths =>
    rcases hmove hu rfl with hold | ⟨-, hnew⟩
    · exact .inl hold
    · rcases List.mem_append.mp hnew with hrel | hmem
      · obtain ⟨hlast, hr⟩ := release_eq_some (Option.mem_toList.mp hrel)
        exact .inr (.inl ⟨_, hpc, hlast, hr⟩)
      · exact .inr (.inr (hpaths path hmem).1)
  | removed hpc =>
    rcases hmove hu rfl with hold | ⟨rfl, hnew⟩
    · exact .inl hold
    · refine .inl ⟨task, ht, ?_⟩
      rw [hpc]
      exact List.mem_cons_of_mem _ hnew
  | still hs =>
    obtain ⟨task₀, hu₀, -, -, -, hl⟩ := hs.tasks u task' hu
    exact .inl ⟨task₀, hu₀, hl.removes path hp⟩

variable {owner owner' : PathBuf → Nat}

/-- No task removes the shared file of a slot that is in use. -/
theorem InPlace.not_prefix (h : InPlace s owner) (hn : Named pid s) (ho : Owned pid s owner)
    (ht : s.tasks[t]? = some task) {slot : Nat} {path : PathBuf} (hfile : s.FileOf slot path)
    {hash : Hash} (ha : s.downloads.active hash = some slot) :
    ∀ q ∈ task.pc.removes, ¬ q <+: path := by
  intro q hq hprefix
  have hshared := hn.fileOf hfile
  rcases (ho.tasks t task ht).removes q hq with hmem | ⟨hown, -, -⟩
  · obtain rfl := (hn.givenOut q hmem).eq_of_inside (hn.givenOut path hshared) hprefix
    exact (h.removes t task ht q hq hmem).2 hash ((ho.fileOf hfile).symm ▸ ha)
  · obtain rfl := hown.givenOut.eq_of_inside (hn.givenOut path hshared) hprefix
    exact hown.ne q hshared rfl

theorem InPlace.runTask (h : InPlace s owner) (hn : Named pid s) (ho : Owned pid s owner)
    (hc : s.leases.Counted) (ht : s.tasks[t]? = some task) {weather : Weather}
    (hrun : s.runTask pid t task weather = some s') :
    ∃ owner', Owned pid s' owner' ∧ InPlace s' owner' := by
  have hstep := fileStep_of_runTask ht hrun
  have hnext : s.next pid (.run t weather) = some s' := by
    rw [SyncSystem.next, ht]
    exact hrun
  obtain ⟨owner', ho', hkeeps⟩ := ho.fileStep hn ht hstep
  refine ⟨owner', ho', fun slot path hash hfile ha ↦ ?_, fun u task' hu path hp hshared ↦ ?_⟩
  · rcases hstep.fileOf ht hfile with hold | ⟨content, mode, time, hpc, -, rfl⟩
    · rcases active_of_next hc hnext trivial ha with ⟨hash', ha₀⟩ | rfl
      · exact hstep.exists_names hn ht (h.files slot path hash' hold ha₀)
          (h.not_prefix hn ho ht hold ha₀)
      · exact absurd (hold.lt hc.keyed) (Nat.lt_irrefl _)
    · have hshared : sharedTmp task.pc = some path := by
        rw [hpc]
        rfl
      have hne := (hn.tasks t task ht).ne_nil hn (.inl hshared)
      exact ⟨_, (obj_put _ hne _ _).trans (if_pos rfl)⟩
  · have hlen := length_le_of_next hnext
    rcases hstep.removes ht hu hp with ⟨task₀, hu₀, hp₀⟩ | ⟨slot, hpc, hlast, hr⟩ | hown
    · have hmem : path ∈ s.sharedTmpPaths := by
        rcases (ho.tasks u task₀ hu₀).removes path hp₀ with hmem | ⟨hown, -, -⟩
        · exact hmem
        · exact absurd rfl ((hkeeps.own path hown).ne path hshared)
      obtain ⟨hlt, hno⟩ := h.removes u task₀ hu₀ path hp₀ hmem
      rw [hkeeps.owner_eq path (hn.givenOut path hmem)]
      refine ⟨hlt.trans_le hlen, fun hash ha ↦ ?_⟩
      rcases active_of_next hc hnext trivial ha with ⟨hash', ha₀⟩ | heq
      · exact hno hash' ha₀
      · exact absurd (heq ▸ hlt) (Nat.lt_irrefl _)
    · rw [hkeeps.owner_eq path (hn.givenOut path (hn.results slot path hr)),
        ho.results slot path hr]
      have hactive := active_of_holds hc ht (Pc.holds_of_releases hpc)
      refine ⟨(lt_of_active hc hactive).trans_le hlen, fun hash ha ↦ ?_⟩
      -- the last release takes the slot away
      rcases runTask_leases ht hrun with ⟨hpc', -⟩ | ⟨k, paths, r, hpc', rfl⟩ | ⟨-, hpc', -⟩
      · rw [hpc'] at hpc
        cases hpc
      · obtain rfl := Option.some.inj (hpc.symm.trans hpc')
        have ha' := (congrArg (Leases.active · hash) (leases_finish ht slot paths r)).symm.trans ha
        rw [Leases.release] at ha'
        dsimp only at ha'
        rw [if_pos hlast] at ha'
        obtain ⟨hne, ha₀⟩ := Leases.of_update_none ha'
        exact hne (hc.active_inj ha₀ hactive)
      · rw [hpc] at hpc'
        cases hpc'
    · exact absurd rfl ((hkeeps.own path ((hn.tasks t task ht).own path hown)).ne path hshared)

/-- A step other than that of a task that leaves the shared files alone. -/
theorem InPlace.rests (h : InPlace s owner) (hn : Named pid s) (hs : Rests s s')
    (hd : s'.downloads = s.downloads)
    (hdisk : ∀ path ∈ s.sharedTmpPaths, s'.disk.obj path = s.disk.obj path) : InPlace s' owner := by
  refine ⟨fun slot path hash hf ha ↦ ?_, fun t task' ht path hp hshared ↦ ?_⟩
  · have hold := hs.fileOf hf
    obtain ⟨i, hi⟩ := h.files slot path hash hold (hd ▸ ha)
    exact ⟨i, (hdisk path (hn.fileOf hold)).trans hi⟩
  · rw [hs.names.sharedTmpPaths_eq] at hshared
    rw [hd]
    rcases hs.tasks t task' ht with ⟨task, ht₀, -, hpc⟩ | hpc | hpc <;> rw [hpc] at hp
    · exact h.removes t task ht₀ path hp hshared
    · cases hp
    · cases hp

/-! ## Runs -/

/-- Nothing is aborted, and what is installed leaves the shared files alone. -/
def Undisturbed (s : SyncSystem) : SyncAct → Prop
  | .abort _ => False
  | .install ts => ∀ path ∈ s.sharedTmpPaths,
      Disk.obj (Proc.exec (applyRemoteEntries (ts.filterMap s.fetchedBy)) s.node).2.world path =
        s.disk.obj path
  | _ => True

instance (s : SyncSystem) (act : SyncAct) : Decidable (Undisturbed s act) :=
  match act with
  | .abort _ => isFalse id
  | .install ts => inferInstanceAs (Decidable (∀ path ∈ s.sharedTmpPaths,
      Disk.obj (Proc.exec (applyRemoteEntries (ts.filterMap s.fetchedBy)) s.node).2.world path =
        s.disk.obj path))
  | .spawn .. | .run .. | .fail _ => isTrue trivial

theorem Undisturbed.abortsNothing {act : SyncAct} (h : Undisturbed s act) : AbortsNothing s act := by
  cases act <;> first | exact h | exact trivial

/-- An action, and what the journal says of it. -/
def journaledNext (pid : Nat) (x : SyncSystem × Journal) (act : SyncAct) :
    Option (SyncSystem × Journal) :=
  (x.1.next pid act).map fun s' ↦ (s', x.1.record x.2 act)

/-- The machine of the process `pid` with its journal, held to what `P` allows. -/
def journaled (pid : Nat) (P : SyncSystem → SyncAct → Prop) : Machine (SyncSystem × Journal) :=
  .ofActions (fun x ↦ x.1.Idle ∧ x.2 = .empty) (journaledNext pid) fun x ↦ P x.1

/-- Slots are led, shared and released as they should be. -/
structure SafelyReleased (s : SyncSystem) (j : Journal) : Prop where
  /-- The slot that a task holds is the active one of its object. -/
  active : ∀ (t : Nat) (task : Task) slot, s.tasks[t]? = some task → task.pc.holds = some slot →
    s.downloads.active task.contentHash = some slot
  /-- A slot is active for one object. -/
  active_inj : ∀ h h' slot, s.downloads.active h = some slot → s.downloads.active h' = some slot →
    h = h'
  /-- A slot was given to one task to lead, which leads it as long as it has no result. -/
  leader : ∀ slot < s.downloads.slots.length, ∃ t, j.leaders slot = [t] ∧
    (∀ (u : Nat) (task : Task), s.tasks[u]? = some task → task.pc.leads slot → u = t) ∧
    (s.result slot = none → ∃ task, s.tasks[t]? = some task ∧ task.pc.leads slot)
  /-- The shared file is there until the slot is released by the last task that holds it. -/
  file : ∀ slot path, s.result slot = some (.ok path) →
    (∃ task ∈ s.tasks, task.pc.holds = some slot) → ∃ i, s.disk.obj path = some (.file i)
  /-- As long as the slot is active, `release` has returned no path. -/
  inUse : ∀ h slot, s.downloads.active h = some slot → ∀ r ∈ j.releases slot, r.2 = none
  /-- Afterwards, the last release has returned the path of the shared file, if any,
  and no other release has. -/
  handedOut : ∀ slot < s.downloads.slots.length, (∀ h, s.downloads.active h ≠ some slot) →
    ∃ t rest, j.releases slot = (t, okPath (s.result slot)) :: rest ∧ ∀ r ∈ rest, r.2 = none
  /-- A target of a slot is claimed once. -/
  claimed : (j.claimed.map fun c ↦ (c.1, c.2.1)).Nodup
  /-- Once all tasks are done there is no active slot. -/
  done : ∀ h, (∀ task ∈ s.tasks, task.contentHash = h → ∃ r, task.pc = .done r) →
    s.downloads.active h = none

/-- What a run keeps. -/
structure Orderly (pid : Nat) (s : SyncSystem) (j : Journal) : Prop where
  counted : s.leases.Counted
  named : Named pid s
  inPlace : ∃ owner, Owned pid s owner ∧ InPlace s owner
  leaders : Leaders s j
  claims : Claims s j
  returned : Returned s j

theorem Orderly.safelyReleased (h : Orderly pid s j) : SafelyReleased s j where
  active t task slot ht hpc := active_of_holds h.counted ht hpc
  active_inj _ _ _ ha ha' := h.counted.active_inj ha ha'
  leader slot hlt := by
    obtain ⟨t, ht⟩ := h.leaders.leaders_eq hlt
    have hmem {u : Nat} : (slot, u) ∈ j.led ↔ u = t := mem_led_of_leaders ht
    exact ⟨t, ht, fun u task hu hl ↦ hmem.mp (h.leaders.of_leads u task slot hu hl),
      h.leaders.leads slot t (hmem.mpr rfl)⟩
  file slot path hr hholds := by
    obtain ⟨owner, -, hin⟩ := h.inPlace
    obtain ⟨task, hmem, hpc⟩ := hholds
    obtain ⟨t, ht⟩ := List.mem_iff_getElem?.mp hmem
    exact hin.files slot path _ (.inl hr) (active_of_holds h.counted ht hpc)
  inUse := h.returned.inUse
  handedOut := h.returned.handedOut
  claimed := h.claims.nodup
  done hash hdone := by
    refine h.counted.active_eq_none fun c hc hkey ↦ ?_
    obtain ⟨task, hmem, rfl⟩ := List.mem_map.mp hc
    obtain ⟨r, hpc⟩ := hdone task hmem hkey
    rw [hpc]
    rfl

theorem Idle.orderly (h : s.Idle) : Orderly pid s .empty := by
  have hactive : s.downloads.active = fun _ ↦ none := by
    rw [h.downloads_eq]
    rfl
  have hslots : s.downloads.slots = [] := by
    rw [h.downloads_eq]
    rfl
  have hresult (slot : Nat) : s.result slot = none := by
    rw [result, hslots]
    rfl
  have htasks (t : Nat) : s.tasks[t]? = none := by
    rw [h.tasks_eq]
    rfl
  refine ⟨h.leases_eq ▸ Leases.counted_empty, ⟨?_, ?_, ?_⟩, ⟨fun _ ↦ 0, ⟨?_, ?_⟩, ?_, ?_⟩,
    ⟨?_, ?_, ?_⟩, ⟨?_, List.nodup_nil⟩, ?_, ?_, fun _ _ ↦ rfl⟩
  all_goals simp [hactive, hslots, hresult, htasks, h.sharedTmpPaths_eq, Journal.empty]

theorem Orderly.next (h : Orderly pid s j) {act : SyncAct} (hact : Undisturbed s act)
    (hnext : s.next pid act = some s') : Orderly pid s' (s.record j act) := by
  have hcounted := counted_next h.counted hact.abortsNothing hnext
  have hnamed := h.named.next hnext
  obtain ⟨owner, ho, hin⟩ := h.inPlace
  cases act with
  | spawn call contentHash entry =>
    have hrests := h.named.rests_next (by simp) hnext
    rw [SyncSystem.next] at hnext
    split at hnext <;> cases hnext
    refine ⟨hcounted, hnamed, ⟨owner, ho.rests hrests, hin.rests h.named hrests rfl fun _ _ ↦ rfl⟩,
      ⟨h.leaders.led_eq, fun u task' slot hu hl ↦ ?_, fun slot u hmem hr ↦ ?_⟩,
      ⟨h.claims.kept, h.claims.nodup⟩, ⟨h.returned.inUse, h.returned.handedOut, h.returned.unused⟩⟩
    · rcases getElem?_of_append hu with hu | rfl
      · exact h.leaders.of_leads u task' slot hu hl
      · cases hl
    · obtain ⟨task₀, hu₀, hl⟩ := h.leaders.leads slot u hmem hr
      obtain ⟨hlt, -⟩ := List.getElem?_eq_some_iff.mp hu₀
      exact ⟨task₀, (List.getElem?_append_left hlt).trans hu₀, hl⟩
  | run t weather =>
    obtain ⟨task, ht, hrun⟩ := Option.bind_eq_some_iff.mp hnext
    obtain ⟨owner', ho', hin'⟩ := hin.runTask h.named ho h.counted ht hrun
    have hleaders := h.leaders.runTask ht hrun
    have hclaims := h.claims.runTask (t := t) hrun
    have hreturned := h.returned.runTask h.counted ht hrun
    rw [record, ht]
    exact ⟨hcounted, hnamed, ⟨owner', ho', hin'⟩,
      ⟨hleaders.led_eq, hleaders.of_leads, hleaders.leads⟩, ⟨hclaims.kept, hclaims.nodup⟩,
      ⟨hreturned.inUse, hreturned.handedOut, hreturned.unused⟩⟩
  | fail call =>
    have hrests := h.named.rests_next (by simp) hnext
    obtain rfl := Option.some.inj hnext
    exact ⟨hcounted, hnamed, ⟨owner, ho.rests hrests, hin.rests h.named hrests rfl fun _ _ ↦ rfl⟩,
      ⟨h.leaders.led_eq, h.leaders.of_leads, h.leaders.leads⟩, ⟨h.claims.kept, h.claims.nodup⟩,
      ⟨h.returned.inUse, h.returned.handedOut, h.returned.unused⟩⟩
  | abort t => cases hact
  | install ts =>
    have hrests := h.named.rests_next (by simp) hnext
    obtain rfl := Option.some.inj hnext
    exact ⟨hcounted, hnamed, ⟨owner, ho.rests hrests, hin.rests h.named hrests rfl hact⟩,
      ⟨h.leaders.led_eq, h.leaders.of_leads, h.leaders.leads⟩, ⟨h.claims.kept, h.claims.nodup⟩,
      ⟨h.returned.inUse, h.returned.handedOut, h.returned.unused⟩⟩

/-- Without aborts, slots are released safely in every reachable state. -/
theorem safelyReleased_of_undisturbed {x : SyncSystem × Journal}
    (h : (journaled pid Undisturbed).Reachable x) : SafelyReleased x.1 x.2 := by
  refine (h.invariant (I := fun x ↦ Orderly pid x.1 x.2) ?_ ?_).safelyReleased
  · rintro ⟨s, j⟩ ⟨hidle, rfl⟩
    exact hidle.orderly
  · rintro ⟨s, j⟩ ⟨s', j'⟩ - hs ⟨act, hact, hnext⟩
    obtain ⟨s₁, hs₁, heq⟩ := Option.map_eq_some_iff.mp hnext
    cases heq
    exact hs.next hact hs₁

omit [Blake3] in
theorem safelyReleased_after_twoEmptyFiles :
    letI : Blake3 := Blake3.reference
    ∃ x, Machine.runs (journaledNext 1) (fun x ↦ Undisturbed x.1) (idle, .empty)
      (twoEmptyFiles true) = some x ∧ SafelyReleased x.1 x.2 := by
  let _ : Blake3 := Blake3.reference
  obtain ⟨x, hx⟩ : ∃ x, Machine.runs (journaledNext 1) (fun x ↦ Undisturbed x.1) (idle, .empty)
      (twoEmptyFiles true) = some x := Option.isSome_iff_exists.mp (by decide +kernel)
  exact ⟨x, hx, safelyReleased_of_undisturbed (Machine.reachable_runs (.init ⟨idle_idle, rfl⟩) hx)⟩

end SyncSystem

end Lilsync
