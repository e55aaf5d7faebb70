import Lilsync.Lib.Machine

/-!
# Filesystem events around a remote sync

`daemon.rs`: `SyncActivity`, two flags that the loop of `run_sync` and the tasks
of `maybe_probe_remote_rpc` share.  While a sync is active the loop does not look
at an event but defers it, and the sync looks at the whole folder when it ends.
The loop reads one flag and sets the other one in two accesses, so a deferral
may come after the sync has looked.
-/

namespace Lilsync

open Lilsync.Lib

/-- Where the loop stands: it has seen a sync that is active, or none. -/
inductive LoopPc where
  | idle
  | deferring
  | scanning
deriving DecidableEq

/-- Where a reconcile task stands: at the gate, behind it, past `begin`, at the first
`take_pending_rescan` and its rescan, at `end`, at the second one and its rescan, and
done.  A task that finds equal roots has not begun. -/
inductive ReconcilePc where
  | waiting
  | comparing
  | reconciling
  | taking (begun : Bool)
  | rescanning (begun : Bool)
  | ending (begun : Bool)
  | takingLast (begun : Bool)
  | rescanningLast
  | leaving
  | done
deriving DecidableEq

namespace ReconcilePc

/-- The task is past `begin` and before its last `take_pending_rescan`. -/
def covers : ReconcilePc → Bool
  | reconciling => true
  | taking begun | rescanning begun | ending begun | takingLast begun => begun
  | waiting | comparing | rescanningLast | leaving | done => false

/-- The task is about to rescan the folder. -/
def rescans : ReconcilePc → Bool
  | rescanning _ | rescanningLast => true
  | _ => false

end ReconcilePc

/-- `SyncActivity` and `reconcile_gate`, and who uses them. `unseen` says that an
event has been deferred and no rescan has followed. -/
structure ActivitySystem where
  active : Bool
  pendingRescan : Bool
  gate : Option Nat
  loop : LoopPc
  tasks : List ReconcilePc
  unseen : Bool

/-- The loop receives an event or goes on with it; a task is spawned or goes on, and
finds roots that differ or do not. -/
inductive ActivityAct where
  | event
  | loop
  | spawn
  | run (t : Nat) (differ : Bool)

namespace ActivitySystem

/-- The loop reads `is_active`, and then either defers a rescan or scans. -/
def runLoop (s : ActivitySystem) : Option ActivitySystem :=
  match s.loop with
  | .idle => none
  | .deferring => some { s with pendingRescan := true, unseen := true, loop := .idle }
  | .scanning => some { s with loop := .idle }

def setPc (s : ActivitySystem) (t : Nat) (pc : ReconcilePc) : ActivitySystem :=
  { s with tasks := s.tasks.set t pc }

/-- `take_pending_rescan`, and a rescan if it was pending. -/
def take (s : ActivitySystem) (t : Nat) (rescan skip : ReconcilePc) : ActivitySystem :=
  { s.setPc t (if s.pendingRescan then rescan else skip) with pendingRescan := false }

/-- The folder is scanned. -/
def rescan (s : ActivitySystem) (t : Nat) (pc : ReconcilePc) : ActivitySystem :=
  { s.setPc t pc with unseen := false }

/-- The next step of a reconcile task. -/
def runTask (s : ActivitySystem) (t : Nat) (pc : ReconcilePc) (differ : Bool) :
    Option ActivitySystem :=
  match pc with
  | .waiting =>
    match s.gate with
    | none => some { s.setPc t .comparing with gate := some t }
    | some _ => none
  | .comparing =>
    if differ then some { s.setPc t .reconciling with active := true }
    else some (s.setPc t (.taking false))
  | .reconciling => some (s.setPc t (.taking true))
  | .taking begun => some (s.take t (.rescanning begun) (.ending begun))
  | .rescanning begun => some (s.rescan t (.ending begun))
  | .ending begun => some { s.setPc t (.takingLast begun) with active := false }
  | .takingLast _ => some (s.take t .rescanningLast .leaving)
  | .rescanningLast => some (s.rescan t .leaving)
  | .leaving => some { s.setPc t .done with gate := none }
  | .done => none

def next (s : ActivitySystem) : ActivityAct → Option ActivitySystem
  | .event =>
    match s.loop with
    | .idle => some { s with loop := if s.active then .deferring else .scanning }
    | _ => none
  | .loop => s.runLoop
  | .spawn => some { s with tasks := s.tasks ++ [.waiting] }
  | .run t differ => s.tasks[t]?.bind fun pc ↦ s.runTask t pc differ

/-- Nothing is pending when no task covers it and the loop is idle: every event that has
been deferred has been followed by a rescan, or a task is about to rescan. -/
def NothingPending (s : ActivitySystem) : Prop :=
  s.loop = .idle → (∀ pc ∈ s.tasks, ¬ pc.covers) →
    s.pendingRescan = false ∧ (s.unseen → ∃ pc ∈ s.tasks, pc.rescans)

/-- An event is deferred only while a task covers it. -/
def DefersInTime (s : ActivitySystem) : ActivityAct → Prop
  | .loop => s.loop = .deferring → ∃ pc ∈ s.tasks, pc.covers
  | _ => True

instance (s : ActivitySystem) (act : ActivityAct) : Decidable (DefersInTime s act) :=
  match act with
  | .loop => inferInstanceAs (Decidable (s.loop = .deferring → ∃ pc ∈ s.tasks, pc.covers))
  | .event | .spawn | .run .. => isTrue trivial

/-! ## The invariant -/

section Invariant

variable {s s' : ActivitySystem} {t : Nat} {pc pc' : ReconcilePc}

/-- What is pending is covered, and what is unseen is pending or about to be seen. -/
structure Covered (s : ActivitySystem) : Prop where
  pending : s.pendingRescan → ∃ pc ∈ s.tasks, pc.covers
  unseen : s.unseen → s.pendingRescan ∨ ∃ pc ∈ s.tasks, pc.rescans

theorem Covered.nothingPending (h : Covered s) : NothingPending s := by
  intro _ hnone
  have hpending : s.pendingRescan = false := by
    by_contra hp
    obtain ⟨pc, hpc, hcovers⟩ := h.pending (Bool.not_eq_false _ ▸ hp)
    exact hnone pc hpc hcovers
  refine ⟨hpending, fun hunseen ↦ (h.unseen hunseen).resolve_left ?_⟩
  rw [hpending]
  exact Bool.false_ne_true

/-- Another task than the one that moves is where it was. -/
theorem exists_mem_set {P : ReconcilePc → Bool} (ht : s.tasks[t]? = some pc)
    (hpc : P pc → P pc') (h : ∃ q ∈ s.tasks, P q) : ∃ q ∈ (s.setPc t pc').tasks, P q := by
  obtain ⟨q, hq, hP⟩ := h
  obtain ⟨u, hu⟩ := List.mem_iff_getElem?.mp hq
  have hlt : t < s.tasks.length := (List.getElem?_eq_some_iff.mp ht).1
  by_cases htu : t = u
  · subst htu
    rw [ht] at hu
    obtain rfl := Option.some.inj hu
    exact ⟨pc', List.mem_set hlt _, hpc hP⟩
  · refine ⟨q, List.mem_iff_getElem?.mpr ⟨u, ?_⟩, hP⟩
    rw [setPc, List.getElem?_set_ne htu, hu]

theorem mem_setPc (ht : s.tasks[t]? = some pc) (pc' : ReconcilePc) :
    pc' ∈ (s.setPc t pc').tasks :=
  List.mem_set (List.getElem?_eq_some_iff.mp ht).1 _

/-- A task that moves and changes neither flag keeps covering and rescanning. -/
theorem Covered.move (h : Covered s) (ht : s.tasks[t]? = some pc) (pc' : ReconcilePc)
    (hcovers : pc.covers → pc'.covers) (hrescans : pc.rescans → pc'.rescans) {active : Bool}
    {gate : Option Nat} : Covered { s.setPc t pc' with active, gate } :=
  ⟨fun hp ↦ exists_mem_set ht hcovers (h.pending hp),
    fun hu ↦ (h.unseen hu).imp_right (exists_mem_set ht hrescans)⟩

/-- A task that takes what is pending is about to rescan. -/
theorem Covered.take (h : Covered s) (ht : s.tasks[t]? = some pc) {rescan skip : ReconcilePc}
    (hpc : pc.rescans = false) (hrescan : rescan.rescans) :
    Covered (s.take t rescan skip) := by
  refine ⟨fun hp ↦ absurd hp Bool.false_ne_true, fun hu ↦ .inr ?_⟩
  rcases h.unseen hu with hp | hr
  · refine ⟨rescan, ?_, hrescan⟩
    rw [ActivitySystem.take, if_pos hp]
    exact mem_setPc ht rescan
  · refine exists_mem_set ht (fun hpc' ↦ ?_) hr
    rw [hpc] at hpc'
    cases hpc'

theorem Covered.rescan (h : Covered s) (ht : s.tasks[t]? = some pc)
    (hcovers : pc.covers → pc'.covers) : Covered (s.rescan t pc') :=
  ⟨fun hp ↦ exists_mem_set ht hcovers (h.pending hp), fun hu ↦ absurd hu Bool.false_ne_true⟩

theorem Covered.runTask (h : Covered s) (ht : s.tasks[t]? = some pc) {differ : Bool}
    (hrun : s.runTask t pc differ = some s') : Covered s' := by
  cases pc with
  | waiting =>
    rw [ActivitySystem.runTask] at hrun
    split at hrun <;> cases hrun
    exact h.move ht .comparing id id
  | comparing =>
    rw [ActivitySystem.runTask] at hrun
    split at hrun <;> cases hrun
    · exact h.move ht .reconciling (fun _ ↦ rfl) id
    · exact h.move ht (.taking false) id id
  | reconciling => cases hrun; exact h.move ht (.taking true) id id
  | taking begun => cases hrun; exact h.take ht rfl rfl
  | rescanning begun => cases hrun; exact h.rescan ht id
  | ending begun => cases hrun; exact h.move ht (.takingLast begun) id id
  | takingLast begun => cases hrun; exact h.take ht rfl rfl
  | rescanningLast => cases hrun; exact h.rescan ht id
  | leaving => cases hrun; exact h.move ht .done id id
  | done => cases hrun

theorem Covered.next (h : Covered s) {act : ActivityAct} (hintime : DefersInTime s act)
    (hnext : s.next act = some s') : Covered s' := by
  cases act with
  | event =>
    rw [ActivitySystem.next] at hnext
    split at hnext <;> cases hnext
    exact ⟨h.pending, h.unseen⟩
  | loop =>
    rw [ActivitySystem.next, runLoop] at hnext
    split at hnext <;> cases hnext
    · next hdefer => exact ⟨fun _ ↦ hintime hdefer, fun _ ↦ .inl rfl⟩
    · exact ⟨h.pending, h.unseen⟩
  | spawn =>
    obtain rfl := Option.some.inj hnext
    refine ⟨fun hp ↦ ?_, fun hu ↦ (h.unseen hu).imp_right ?_⟩
    · obtain ⟨pc, hpc, hc⟩ := h.pending hp
      exact ⟨pc, List.mem_append_left _ hpc, hc⟩
    · rintro ⟨pc, hpc, hr⟩
      exact ⟨pc, List.mem_append_left _ hpc, hr⟩
  | run t differ =>
    obtain ⟨pc, ht, hrun⟩ := Option.bind_eq_some_iff.mp hnext
    exact h.runTask ht hrun

/-- No sync is going on and nothing is pending. -/
def quiet : ActivitySystem := ⟨false, false, none, .idle, [], false⟩

/-- The machine of the loop and the tasks, held to what `P` allows. -/
def machine (P : ActivitySystem → ActivityAct → Prop) : Machine ActivitySystem :=
  .ofActions (· = quiet) next P

/-- As long as events are deferred in time, none of them is lost. -/
theorem nothingPending_of_defersInTime (h : (machine DefersInTime).Reachable s) :
    NothingPending s := by
  refine (h.invariant (I := Covered) ?_ ?_).nothingPending
  · rintro s rfl
    exact ⟨fun hp ↦ absurd hp Bool.false_ne_true, fun hu ↦ absurd hu Bool.false_ne_true⟩
  · rintro s s' - hs ⟨act, hintime, hnext⟩
    exact hs.next hintime hnext

end Invariant

/-- A sync starts, and the loop sees it when an event comes. -/
def seeSync : List ActivityAct := [.spawn, .run 0 true, .run 0 true, .event]

/-- The sync ends: the first take, `end` and the second one, which rescans if something
is pending. -/
def endSync (pending : Bool) : List ActivityAct :=
  List.replicate (if pending then 6 else 5) (.run 0 true)

theorem nothingPending_after_sync :
    ∃ s, Machine.runs next DefersInTime quiet (seeSync ++ .loop :: endSync true) = some s ∧
      NothingPending s := by
  obtain ⟨s, hs⟩ : ∃ s, Machine.runs next DefersInTime quiet
      (seeSync ++ .loop :: endSync true) = some s := Option.isSome_iff_exists.mp (by decide)
  exact ⟨s, hs, nothingPending_of_defersInTime (Machine.reachable_runs (.init rfl) hs)⟩

/-- The counterexample: the sync ends before the loop stores the deferral. -/
theorem not_forall_nothingPending :
    ¬ ∀ s, (machine fun _ _ ↦ True).Reachable s → NothingPending s := by
  intro h
  obtain ⟨s, hs, hlost⟩ := (Option.any_eq_true _ _).mp
    (show (Machine.runs next (fun _ _ ↦ True) quiet (seeSync ++ endSync false ++ [.loop])).any
      (fun s ↦ s.loop == .idle && s.tasks.all (!·.covers) && s.pendingRescan) by decide)
  simp only [Bool.and_eq_true, beq_iff_eq, List.all_eq_true, Bool.not_eq_true'] at hlost
  obtain ⟨⟨hidle, hnone⟩, hpending⟩ := hlost
  have hnot := (h s (Machine.reachable_runs (.init rfl) hs) hidle fun pc hpc ↦ by
    rw [hnone pc hpc]; exact Bool.false_ne_true).1
  rw [hpending] at hnot
  cases hnot

end ActivitySystem

end Lilsync
