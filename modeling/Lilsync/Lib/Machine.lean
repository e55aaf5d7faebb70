import Mathlib

/-!
# State machines

A machine has states it may start in and steps it may take.  What holds at the
start and is kept by every step from a reachable state holds in every reachable
state (`Reachable.invariant`).
-/

namespace Lilsync.Lib

/-- A state machine. -/
structure Machine (σ : Type) where
  init : σ → Prop
  step : σ → σ → Prop

namespace Machine

variable {σ : Type} {M M' : Machine σ} {s s' : σ}

/-- The states a machine can get to. -/
inductive Reachable (M : Machine σ) : σ → Prop where
  | init {s : σ} : M.init s → Reachable M s
  | step {s s' : σ} : Reachable M s → M.step s s' → Reachable M s'

/-- A machine whose steps are held to a condition on the state before. -/
def restrict (M : Machine σ) (P : σ → σ → Prop) : Machine σ :=
  ⟨M.init, fun s s' ↦ M.step s s' ∧ P s s'⟩

/-- What holds at the start and is kept by every step holds throughout. -/
theorem Reachable.invariant {I : σ → Prop} (hinit : ∀ s, M.init s → I s)
    (hstep : ∀ s s', M.Reachable s → I s → M.step s s' → I s') (h : M.Reachable s) : I s := by
  induction h with
  | init h => exact hinit _ h
  | step h hs ih => exact hstep _ _ h ih hs

/-- A machine reaches what a more restricted one reaches. -/
theorem Reachable.mono (hinit : ∀ s, M.init s → M'.init s)
    (hstep : ∀ s s', M.step s s' → M'.step s s') (h : M.Reachable s) : M'.Reachable s :=
  h.invariant (fun s hs ↦ .init (hinit s hs)) fun _ _ _ ih hs ↦ .step ih (hstep _ _ hs)

/-- What several steps lead to can be reached. -/
theorem Reachable.steps (h : M.Reachable s) (hsteps : Relation.ReflTransGen M.step s s') :
    M.Reachable s' := by
  induction hsteps with
  | refl => exact h
  | tail _ hstep ih => exact .step ih hstep

/-! ## Steps that go down -/

section Descends

variable {α : Type} [Preorder α] [WellFoundedLT α] {rank : σ → α} {I : σ → Prop}

/-- Steps that keep an invariant and lower a rank do not go on for ever. -/
theorem not_exists_run (hstep : ∀ s s', I s → M.step s s' → I s' ∧ rank s' < rank s) (h : I s) :
    ¬ ∃ run : ℕ → σ, run 0 = s ∧ ∀ n, M.step (run n) (run (n + 1)) := by
  rintro ⟨run, rfl, hrun⟩
  have hI : ∀ n, I (run n) := by
    intro n
    induction n with
    | zero => exact h
    | succ n ih => exact (hstep _ _ ih (hrun n)).1
  exact not_strictAnti_of_wellFoundedLT (rank ∘ run)
    (strictAnti_nat_of_succ_lt fun n ↦ (hstep _ _ (hI n) (hrun n)).2)

/-- They come to a state without steps. -/
theorem exists_final (hstep : ∀ s s', I s → M.step s s' → I s' ∧ rank s' < rank s) (h : I s) :
    ∃ s', Relation.ReflTransGen M.step s s' ∧ ∀ s'', ¬ M.step s' s'' := by
  induction hs : rank s using WellFoundedLT.induction generalizing s with
  | _ a ih =>
    by_cases hfinal : ∃ s', M.step s s'
    · obtain ⟨s₁, hs₁⟩ := hfinal
      obtain ⟨hI, hlt⟩ := hstep s s₁ h hs₁
      obtain ⟨s', hsteps, hend⟩ := ih _ (hs ▸ hlt) hI rfl
      exact ⟨s', .head hs₁ hsteps, hend⟩
    · exact ⟨s, .refl, not_exists.mp hfinal⟩

/-- What steps keep, a run keeps. -/
theorem steps_invariant (hstep : ∀ s s', I s → M.step s s' → I s') (h : I s)
    (hsteps : Relation.ReflTransGen M.step s s') : I s' := by
  induction hsteps with
  | refl => exact h
  | tail _ hlast ih => exact hstep _ _ ih hlast

end Descends

/-! ## Actions -/

section Actions

variable {α : Type} {init : σ → Prop} {next : σ → α → Option σ} {P : σ → α → Prop}

/-- The machine of a step function on actions, held to the actions that `P` allows. -/
def ofActions (init : σ → Prop) (next : σ → α → Option σ) (P : σ → α → Prop) : Machine σ :=
  ⟨init, fun s s' ↦ ∃ act, P s act ∧ next s act = some s'⟩

/-- Several actions in a row, as far as `P` allows them. -/
def runs (next : σ → α → Option σ) (P : σ → α → Prop) [∀ s act, Decidable (P s act)] (s : σ)
    (acts : List α) : Option σ :=
  acts.foldlM (fun s act ↦ if P s act then next s act else none) s

/-- Actions that `Q` allows are allowed by `P`. -/
theorem reachable_runs_of_imp {Q : σ → α → Prop} [∀ s act, Decidable (Q s act)] {acts : List α}
    (hQ : ∀ s act, Q s act → P s act) (h : (ofActions init next P).Reachable s)
    (hrun : runs next Q s acts = some s') : (ofActions init next P).Reachable s' := by
  induction acts generalizing s with
  | nil => exact Option.some.inj hrun ▸ h
  | cons act acts ih =>
    rw [runs, List.foldlM_cons] at hrun
    obtain ⟨s₁, hs₁, hrest⟩ := Option.bind_eq_some_iff.mp hrun
    split at hs₁
    · next hact => exact ih (.step h ⟨act, hQ s act hact, hs₁⟩) hrest
    · cases hs₁

theorem reachable_runs [∀ s act, Decidable (P s act)] {acts : List α}
    (h : (ofActions init next P).Reachable s) (hrun : runs next P s acts = some s') :
    (ofActions init next P).Reachable s' :=
  reachable_runs_of_imp (fun _ _ hact ↦ hact) h hrun

end Actions

end Machine

end Lilsync.Lib
