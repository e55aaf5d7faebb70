import Mathlib

/-!
# Fallible stateful programs

A method that may return early with an error leaves the object as the error
found it.  Such a method is a program of the monad `Proc ε σ`: it runs on a
state, ends with a value or an error, and in both cases with a state.

The rules come in two kinds.  The `exec_*` lemmas run a program step by step;
they are the simp set of this file.  `Keeps R m` says that every run of `m`
leads to an `R`-related state, whether it succeeds or fails; for a reflexive and
transitive `R` it is proved along the structure of the program.
-/

namespace Lilsync.Lib

/-- Programs on a state `σ` that end with a value or an error. -/
abbrev Proc (ε σ : Type) := ExceptT ε (StateM σ)

namespace Proc

variable {ε σ τ α β : Type}

/-- Run a program. -/
def exec (m : Proc ε σ α) (s : σ) : Except ε α × σ := StateT.run (ExceptT.run m) s

/-- The program with the given runs. -/
def ofExec (f : σ → Except ε α × σ) : Proc ε σ α := ExceptT.mk f

/-- Run a program and hand its result over, error or not: a `match` on a call. -/
def attempt (m : Proc ε σ α) : Proc ε σ (Except ε α) :=
  ofExec fun s ↦ (.ok (exec m s).1, (exec m s).2)

/-- Run a program if a condition holds. -/
def when (c : Prop) [Decidable c] (m : Proc ε σ Unit) : Proc ε σ Unit := if c then m else pure ()

/-- Run a program on each element and put the lists it returns together. -/
def gather (f : α → Proc ε σ (List β)) (l : List α) : Proc ε σ (List β) :=
  l.foldlM (fun bs a ↦ do
    let bs' ← f a
    pure (bs ++ bs')) []

/-- Run a program on a part of a larger state. -/
def zoom (get : τ → σ) (set : τ → σ → τ) (m : Proc ε σ α) : Proc ε τ α :=
  ofExec fun t ↦ ((exec m (get t)).1, set t (exec m (get t)).2)

/-! ## Running -/

section Exec

variable (m : Proc ε σ α) (s : σ)

@[simp] theorem exec_ofExec (f : σ → Except ε α × σ) : exec (ofExec f) s = f s := rfl

@[simp] theorem exec_pure (a : α) : exec (pure a : Proc ε σ α) s = (.ok a, s) := rfl

@[simp] theorem exec_throw (e : ε) : exec (throw e : Proc ε σ α) s = (.error e, s) := rfl

@[simp] theorem exec_get : exec (get : Proc ε σ σ) s = (.ok s, s) := rfl

@[simp] theorem exec_set (s' : σ) : exec (set s' : Proc ε σ PUnit) s = (.ok ⟨⟩, s') := rfl

@[simp] theorem exec_modify (f : σ → σ) : exec (modify f : Proc ε σ PUnit) s = (.ok ⟨⟩, f s) := rfl

@[simp] theorem exec_attempt : exec (attempt m) s = (.ok (exec m s).1, (exec m s).2) := rfl

@[simp] theorem exec_zoom (get : τ → σ) (set : τ → σ → τ) (t : τ) :
    exec (zoom get set m) t = ((exec m (get t)).1, set t (exec m (get t)).2) := rfl

theorem exec_when (c : Prop) [Decidable c] (m : Proc ε σ Unit) (s : σ) :
    exec (when c m) s = if c then exec m s else (.ok (), s) := by
  rw [when]
  split <;> rfl

/-- A sequence runs its second part where the first one succeeded. -/
theorem exec_bind (f : α → Proc ε σ β) : exec (m >>= f) s =
    match exec m s with
    | (.ok a, s') => exec (f a) s'
    | (.error e, s') => (.error e, s') := by
  change StateT.run (ExceptT.run (m >>= f)) s = _
  rw [ExceptT.run_bind, StateT.run_bind]
  cases h : exec m s with
  | mk r s' =>
    rw [exec] at h
    rw [h]
    cases r <;> rfl

theorem exec_bind_ok {m : Proc ε σ α} {s s' : σ} {a : α} (h : exec m s = (.ok a, s'))
    (f : α → Proc ε σ β) : exec (m >>= f) s = exec (f a) s' := by
  rw [exec_bind, h]

theorem exec_bind_error {m : Proc ε σ α} {s s' : σ} {e : ε} (h : exec m s = (.error e, s'))
    (f : α → Proc ε σ β) : exec (m >>= f) s = (.error e, s') := by
  rw [exec_bind, h]

/-- A sequence that succeeds has two parts that succeed. -/
theorem of_exec_bind {m : Proc ε σ α} {f : α → Proc ε σ β} {s s' : σ} {b : β}
    (h : exec (m >>= f) s = (.ok b, s')) :
    ∃ a s₁, exec m s = (.ok a, s₁) ∧ exec (f a) s₁ = (.ok b, s') := by
  rw [exec_bind] at h
  match hm : exec m s with
  | (.ok a, s₁) =>
    rw [hm] at h
    exact ⟨a, s₁, rfl, h⟩
  | (.error e, s₁) =>
    rw [hm] at h
    cases h

@[simp] theorem exec_pure_bind (a : α) (f : α → Proc ε σ β) :
    exec (pure a >>= f) s = exec (f a) s := rfl

@[simp] theorem exec_get_bind (f : σ → Proc ε σ β) : exec (get >>= f) s = exec (f s) s := rfl

@[simp] theorem exec_modify_bind (g : σ → σ) (f : PUnit → Proc ε σ β) :
    exec (modify g >>= f) s = exec (f ⟨⟩) (g s) := rfl

@[simp] theorem exec_attempt_bind (f : Except ε α → Proc ε σ β) :
    exec (attempt m >>= f) s = exec (f (exec m s).1) (exec m s).2 := rfl

@[simp] theorem exec_throw_bind (e : ε) (f : α → Proc ε σ β) :
    exec (throw e >>= f) s = (.error e, s) := rfl

end Exec

section Gather

variable (f : α → Proc ε σ (List β)) (l : List α)

@[simp] theorem gather_nil : gather f [] = pure [] := rfl

/-- What is put together first stays in front. -/
theorem foldlM_gather (bs : List β) :
    l.foldlM (fun bs a ↦ f a >>= fun bs' ↦ pure (bs ++ bs')) bs =
      gather f l >>= fun bs' ↦ pure (bs ++ bs') := by
  have key (bs cs : List β) :
      l.foldlM (fun bs a ↦ f a >>= fun bs' ↦ pure (bs ++ bs')) (bs ++ cs) =
        l.foldlM (fun bs a ↦ f a >>= fun bs' ↦ pure (bs ++ bs')) cs >>= fun bs' ↦
          pure (bs ++ bs') := by
    induction l generalizing cs with
    | nil => rfl
    | cons a l ih => simp only [List.foldlM_cons, bind_assoc, pure_bind, List.append_assoc, ih]
  simpa only [List.append_nil, gather] using key bs []

theorem gather_cons (a : α) : gather f (a :: l) =
    f a >>= fun bs ↦ gather f l >>= fun bs' ↦ pure (bs ++ bs') := by
  rw [gather, List.foldlM_cons, bind_assoc]
  simp only [pure_bind, List.nil_append, foldlM_gather]

/-- A run over a list succeeds if its first turn and the run over the rest do. -/
theorem exec_gather_cons_ok_iff {a : α} {s s' : σ} {cs : List β} :
    exec (gather f (a :: l)) s = (.ok cs, s') ↔ ∃ bs s₁ bs', exec (f a) s = (.ok bs, s₁) ∧
      exec (gather f l) s₁ = (.ok bs', s') ∧ bs ++ bs' = cs := by
  rw [gather_cons]
  constructor
  · intro h
    obtain ⟨bs, s₁, hfirst, h⟩ := of_exec_bind h
    obtain ⟨bs', s₂, hrest, h⟩ := of_exec_bind h
    cases h
    exact ⟨bs, s₁, bs', hfirst, hrest, rfl⟩
  · rintro ⟨bs, s₁, bs', hfirst, hrest, rfl⟩
    rw [exec_bind_ok hfirst, exec_bind_ok hrest, exec_pure]

end Gather

/-- A loop that succeeds has made all its turns; what a turn achieves, while the invariant
holds, is true at the end if the later turns keep it. -/
theorem of_exec_foldlM {f : β → α → Proc ε σ β} {I : σ → Prop} {R : β × σ → β × σ → Prop}
    {Q : α → β × σ → Prop} {l : List α} {b b' : β} {s s' : σ} (hrefl : ∀ x, R x x)
    (htrans : ∀ x y z, R x y → R y z → R x z)
    (hturn : ∀ a ∈ l, ∀ b s b' s', I s → exec (f b a) s = (.ok b', s') →
      I s' ∧ R (b, s) (b', s') ∧ Q a (b', s'))
    (hkeep : ∀ a x y, Q a x → R x y → Q a y) (hI : I s) (h : exec (l.foldlM f b) s = (.ok b', s')) :
    R (b, s) (b', s') ∧ ∀ a ∈ l, Q a (b', s') := by
  induction l generalizing b s with
  | nil =>
    cases h
    exact ⟨hrefl _, fun a ha ↦ absurd ha List.not_mem_nil⟩
  | cons a l ih =>
    rw [List.foldlM_cons] at h
    obtain ⟨b₁, s₁, hfirst, hrest⟩ := of_exec_bind h
    obtain ⟨hI₁, hR, hQ⟩ := hturn a List.mem_cons_self b s b₁ s₁ hI hfirst
    obtain ⟨hR', hQ'⟩ := ih (fun a ha ↦ hturn a (List.mem_cons_of_mem _ ha)) hI₁ hrest
    exact ⟨htrans _ _ _ hR hR', List.forall_mem_cons.mpr ⟨hkeep _ _ _ hQ hR', hQ'⟩⟩

/-! ## What every run keeps -/

/-- Every run of the program leads to a related state. -/
def Keeps (R : σ → σ → Prop) (m : Proc ε σ α) : Prop := ∀ s, R s (exec m s).2

/-- The states that agree on an observation. -/
def Same {γ : Type} (f : σ → γ) (s s' : σ) : Prop := f s' = f s

instance {γ : Type} (f : σ → γ) : IsPreorder σ (Same f) where
  refl _ := rfl
  trans _ _ _ h h' := Eq.trans h' h

section Keeps

variable {R : σ → σ → Prop} {m : Proc ε σ α}

theorem Keeps.mono {R' : σ → σ → Prop} (h : Keeps R m) (hR : ∀ s s', R s s' → R' s s') :
    Keeps R' m := fun s ↦ hR _ _ (h s)

theorem Keeps.attempt (h : Keeps R m) : Keeps R (attempt m) := h

theorem keeps_modify {f : σ → σ} (h : ∀ s, R s (f s)) : Keeps R (modify f : Proc ε σ PUnit) := h

/-- A program on a part changes the part only. -/
theorem keeps_zoom {get : τ → σ} {set : τ → σ → τ} {R : τ → τ → Prop}
    (h : ∀ t s, R t (set t s)) : Keeps R (zoom get set m) := fun t ↦ h t _

variable [IsPreorder σ R]

theorem keeps_pure (a : α) : Keeps R (pure a : Proc ε σ α) := fun s ↦ refl_of R s

theorem keeps_throw (e : ε) : Keeps R (throw e : Proc ε σ α) := fun s ↦ refl_of R s

theorem keeps_get : Keeps R (get : Proc ε σ σ) := fun s ↦ refl_of R s

theorem Keeps.bind {f : α → Proc ε σ β} (h : Keeps R m) (hf : ∀ a, Keeps R (f a)) :
    Keeps R (m >>= f) := by
  intro s
  have hs := h s
  rw [exec_bind]
  match hr : exec m s with
  | (.ok a, s') =>
    rw [hr] at hs
    exact trans_of R hs (hf a s')
  | (.error e, s') =>
    rw [hr] at hs
    exact hs

omit [IsPreorder σ R] in
theorem Keeps.pure_bind {a : α} {f : α → Proc ε σ β} (h : Keeps R (f a)) :
    Keeps R (pure a >>= f) := h

theorem keeps_throw_bind (e : ε) (f : α → Proc ε σ β) :
    Keeps R ((throw e : Proc ε σ α) >>= f) := fun s ↦ refl_of R s

theorem Keeps.foldlM {f : β → α → Proc ε σ β} (h : ∀ b a, Keeps R (f b a)) (l : List α) (b : β) :
    Keeps R (l.foldlM f b) := by
  induction l generalizing b with
  | nil => exact keeps_pure b
  | cons a l ih => exact (h b a).bind fun b' ↦ ih b'

theorem Keeps.forM {f : α → Proc ε σ PUnit} {l : List α} (h : ∀ a ∈ l, Keeps R (f a)) :
    Keeps R (l.forM f) := by
  induction l with
  | nil => exact keeps_pure _
  | cons a l ih =>
    exact (h a List.mem_cons_self).bind fun _ ↦ ih fun b hb ↦ h b (List.mem_cons_of_mem _ hb)

end Keeps

/-! ## What a successful run returns -/

/-- Every value the program returns has the property. -/
def Yields (P : α → Prop) (m : Proc ε σ α) : Prop := ∀ s a, (exec m s).1 = .ok a → P a

section Yields

variable {m : Proc ε σ α} {P : α → Prop} {Q : β → Prop}

theorem yields_true (m : Proc ε σ α) : Yields (fun _ ↦ True) m := fun _ _ _ ↦ trivial

theorem yields_pure {a : α} (h : P a) : Yields P (pure a : Proc ε σ α) := by
  rintro s b hb
  exact Except.ok.inj hb ▸ h

theorem yields_throw (e : ε) : Yields P (throw e : Proc ε σ α) := by
  rintro s a ha
  cases ha

theorem Yields.bind {f : α → Proc ε σ β} (h : Yields P m) (hf : ∀ a, P a → Yields Q (f a)) :
    Yields Q (m >>= f) := by
  intro s b hb
  rw [exec_bind] at hb
  match hr : exec m s with
  | (.ok a, s') =>
    rw [hr] at hb
    exact hf a (h s a (by rw [hr])) s' b hb
  | (.error e, s') =>
    rw [hr] at hb
    cases hb

theorem Yields.foldlM {f : β → α → Proc ε σ β} {l : List α}
    (h : ∀ b, Q b → ∀ a ∈ l, Yields Q (f b a)) {b : β} (hb : Q b) : Yields Q (l.foldlM f b) := by
  induction l generalizing b with
  | nil => exact yields_pure hb
  | cons a l ih =>
    exact (h b hb a List.mem_cons_self).bind fun b' hb' ↦
      ih (fun b hb a ha ↦ h b hb a (List.mem_cons_of_mem _ ha)) hb'

/-- What the first part returns may be used for the second one. -/
theorem Keeps.bind_yields {R : σ → σ → Prop} [IsPreorder σ R] {f : α → Proc ε σ β}
    (h : Keeps R m) (hm : Yields P m) (hf : ∀ a, P a → Keeps R (f a)) : Keeps R (m >>= f) := by
  intro s
  have hs := h s
  rw [exec_bind]
  match hr : exec m s with
  | (.ok a, s') =>
    rw [hr] at hs
    exact trans_of R hs (hf a (hm s a (by rw [hr])) s')
  | (.error e, s') =>
    rw [hr] at hs
    exact hs

/-- Whatever the first part returns. -/
theorem yields_bind {f : α → Proc ε σ β} (hf : ∀ a, Yields Q (f a)) : Yields Q (m >>= f) :=
  (yields_true m).bind fun a _ ↦ hf a

end Yields

end Proc

end Lilsync.Lib
