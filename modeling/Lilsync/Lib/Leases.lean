import Mathlib

/-!
# Counted slots

Clients that want the same thing share a slot, which counts those that hold it.
Who comes first makes the slot, and who leaves last takes it away.

`Counted` says what the counts mean, and every step keeps it (`Counted.step`): a
slot that is held is the active one for its key, and a key whose clients hold
nothing has no active slot.  When clients may be gone without giving their slot
back, a slot still serves one key (`Keyed`).
-/

namespace Lilsync.Lib

/-- The active slot of each key, the count of each slot, and what each client wants
and holds. -/
@[ext]
structure Leases (κ : Type) where
  active : κ → Option Nat
  counts : List Nat
  clients : List (κ × Option Nat)

namespace Leases

variable {κ : Type} {s s' : Leases κ} {t slot : Nat} {key key' : κ}

/-- Nobody has come. -/
def empty : Leases κ := ⟨fun _ ↦ none, [], []⟩

/-- How many clients hold the slot. -/
def holders (clients : List (κ × Option Nat)) (slot : Nat) : Nat :=
  clients.countP fun c ↦ c.2 = some slot

/-- A client gets the active slot for its key, or a new one. -/
def acquire [DecidableEq κ] (s : Leases κ) (t : Nat) (key : κ) : Leases κ :=
  match s.active key with
  | some slot =>
    { s with
      counts := s.counts.modify slot (· + 1)
      clients := s.clients.set t (key, some slot) }
  | none =>
    { active := Function.update s.active key (some s.counts.length)
      counts := s.counts ++ [1]
      clients := s.clients.set t (key, some s.counts.length) }

/-- The client is the last one to hold the slot. -/
def IsLast (s : Leases κ) (key : κ) (slot : Nat) : Prop :=
  s.counts[slot]?.any (· - 1 = 0) ∧ s.active key = some slot

instance (s : Leases κ) (key : κ) (slot : Nat) : Decidable (s.IsLast key slot) :=
  inferInstanceAs (Decidable (_ ∧ _))

/-- A client gives its slot back. -/
def release [DecidableEq κ] (s : Leases κ) (t : Nat) (key : κ) (slot : Nat) : Leases κ where
  active := if s.IsLast key slot then Function.update s.active key none else s.active
  counts := s.counts.modify slot (· - 1)
  clients := s.clients.set t (key, none)

/-- The steps of the clients. -/
inductive Step [DecidableEq κ] : Leases κ → Leases κ → Prop where
  | come (s : Leases κ) (key : κ) : Step s { s with clients := s.clients ++ [(key, none)] }
  | acquire {s : Leases κ} {t : Nat} {key : κ} (h : s.clients[t]? = some (key, none)) :
    Step s (s.acquire t key)
  | release {s : Leases κ} {t slot : Nat} {key : κ} (h : s.clients[t]? = some (key, some slot)) :
    Step s (s.release t key slot)

/-- A client is gone and has not given its slot back. -/
def abandon (s : Leases κ) (t : Nat) (key : κ) : Leases κ :=
  { s with clients := s.clients.set t (key, none) }

/-- The slot is the active one for the key, or a client that wants the key holds it. -/
def Serves (s : Leases κ) (slot : Nat) (key : κ) : Prop :=
  s.active key = some slot ∨ (key, some slot) ∈ s.clients

/-- The counts are right. -/
structure Counted (s : Leases κ) : Prop where
  active_lt : ∀ {key slot}, s.active key = some slot → slot < s.counts.length
  active_inj : ∀ {key key' slot}, s.active key = some slot → s.active key' = some slot → key = key'
  held : ∀ {key slot}, (key, some slot) ∈ s.clients → s.active key = some slot
  count : ∀ slot < s.counts.length, s.counts[slot]? = some (holders s.clients slot)
  pos : ∀ {key slot}, s.active key = some slot → 0 < holders s.clients slot

theorem counted_empty : Counted (empty : Leases κ) where
  active_lt h := by cases h
  active_inj h := by cases h
  held h := by cases h
  count slot h := absurd h (Nat.not_lt_zero slot)
  pos h := by cases h

/-! ## What a client changes -/

/-- A client that takes a slot, or gives one back. -/
theorem holders_set {held held' : Option Nat} (h : s.clients[t]? = some (key, held)) (j : Nat) :
    holders (s.clients.set t (key, held')) j + (if held = some j then 1 else 0) =
      holders s.clients j + (if held' = some j then 1 else 0) := by
  obtain ⟨hlt, hget⟩ := List.getElem?_eq_some_iff.mp h
  rw [holders, List.countP_set hlt, hget]
  simp only [decide_eq_true_eq]
  have hpos : held = some j → 0 < holders s.clients j := fun heq ↦
    List.countP_pos_iff.mpr ⟨_, List.mem_of_getElem? h, decide_eq_true heq⟩
  rw [holders] at hpos ⊢
  split
  · next heq =>
    have := hpos heq
    omega
  · omega

/-- Who holds what after a client has changed. -/
theorem mem_set {held' : Option Nat} {c : κ × Option Nat}
    (hc : c ∈ s.clients.set t (key, held')) : c = (key, held') ∨ c ∈ s.clients :=
  (List.mem_or_eq_of_mem_set hc).symm

/-- What is active after a slot was made. -/
theorem of_update_some [DecidableEq κ] {active : κ → Option Nat} {j : Nat}
    (h : Function.update active key (some j) key' = some slot) :
    key' = key ∧ slot = j ∨ key' ≠ key ∧ active key' = some slot := by
  by_cases heq : key' = key
  · rw [heq, Function.update_self] at h
    exact .inl ⟨heq, (Option.some.inj h).symm⟩
  · rw [Function.update_of_ne heq] at h
    exact .inr ⟨heq, h⟩

/-- What is active after a slot was taken away. -/
theorem of_update_none [DecidableEq κ] {active : κ → Option Nat}
    (h : Function.update active key none key' = some slot) :
    key' ≠ key ∧ active key' = some slot := by
  by_cases heq : key' = key
  · rw [heq, Function.update_self] at h
    cases h
  · rw [Function.update_of_ne heq] at h
    exact ⟨heq, h⟩

theorem holders_lt (hs : Counted s) (h : s.clients[t]? = some (key, some slot)) :
    slot < s.counts.length :=
  hs.active_lt (hs.held (List.mem_of_getElem? h))

theorem holders_pos (h : s.clients[t]? = some (key, some slot)) : 0 < holders s.clients slot :=
  List.countP_pos_iff.mpr ⟨_, List.mem_of_getElem? h, decide_eq_true rfl⟩

/-- Nobody holds a slot that is not there. -/
theorem Counted.holders_eq_zero (hs : Counted s) (h : s.counts.length ≤ slot) :
    holders s.clients slot = 0 := by
  refine List.countP_eq_zero.mpr fun c hc heq ↦ ?_
  have hheld : s.active c.1 = some slot := hs.held (of_decide_eq_true heq ▸ hc)
  exact absurd (hs.active_lt hheld) (Nat.not_lt.mpr h)

/-- A client is the last one if it is the only one. -/
theorem Counted.isLast_iff (hs : Counted s) (h : s.clients[t]? = some (key, some slot)) :
    s.IsLast key slot ↔ holders s.clients slot = 1 := by
  have hactive := hs.held (List.mem_of_getElem? h)
  have hpos := holders_pos h
  rw [IsLast, hs.count slot (holders_lt hs h), Option.any_some, decide_eq_true_iff,
    and_iff_left hactive]
  omega

/-! ## Steps -/

theorem Counted.come (hs : Counted s) (key : κ) :
    Counted { s with clients := s.clients ++ [(key, none)] } := by
  have hholders (j : Nat) :
      holders (s.clients ++ [(key, none)]) j = holders s.clients j := by
    rw [holders, List.countP_append, List.countP_singleton]
    simp [holders]
  refine ⟨hs.active_lt, hs.active_inj, fun h ↦ ?_, fun j hj ↦ ?_, fun h ↦ ?_⟩
  · rcases List.mem_append.mp h with h | h
    · exact hs.held h
    · cases List.mem_singleton.mp h
  · rw [hholders]
    exact hs.count j hj
  · rw [hholders]
    exact hs.pos h

theorem Counted.acquire [DecidableEq κ] (hs : Counted s) (h : s.clients[t]? = some (key, none)) :
    Counted (s.acquire t key) := by
  rw [Leases.acquire]
  cases hactive : s.active key with
  | some slot =>
    have hholders := @holders_set _ s t key none (some slot) h
    refine ⟨fun ha ↦ ?_, hs.active_inj, fun hc ↦ ?_, fun j hj ↦ ?_, fun {key' j} ha ↦ ?_⟩
    · rw [List.length_modify]
      exact hs.active_lt ha
    · rcases mem_set hc with heq | hc
      · cases heq
        exact hactive
      · exact hs.held hc
    · rw [List.length_modify] at hj
      have hj' := hholders j
      rw [List.getElem?_modify, hs.count j hj]
      by_cases heq : slot = j
      · subst heq
        simp only [reduceCtorEq, ↓reduceIte, Nat.add_zero] at hj' ⊢
        rw [hj']
        rfl
      · simp only [reduceCtorEq, heq, Option.some.injEq, ↓reduceIte, Nat.add_zero] at hj' ⊢
        rw [hj']
        rfl
    · have hj' := hholders j
      have hpos := hs.pos ha
      simp only [reduceCtorEq, ↓reduceIte] at hj'
      dsimp only
      omega
  | none =>
    have hholders := @holders_set _ s t key none (some s.counts.length) h
    have hnew := hs.holders_eq_zero (le_refl s.counts.length)
    dsimp only
    refine ⟨fun ha ↦ ?_, fun ha ha' ↦ ?_, fun {key' j} hc ↦ ?_, fun j hj ↦ ?_, fun {key' j} ha ↦ ?_⟩
    · rw [List.length_append, List.length_singleton]
      rcases of_update_some ha with ⟨-, rfl⟩ | ⟨-, ha⟩
      · exact Nat.lt_succ_self _
      · exact Nat.lt_succ_of_lt (hs.active_lt ha)
    · rcases of_update_some ha with ⟨heq, hj⟩ | ⟨-, hold⟩ <;>
        rcases of_update_some ha' with ⟨heq', hj'⟩ | ⟨-, hold'⟩
      · exact heq.trans heq'.symm
      · exact absurd (hj ▸ hs.active_lt hold') (Nat.lt_irrefl _)
      · exact absurd (hj' ▸ hs.active_lt hold) (Nat.lt_irrefl _)
      · exact hs.active_inj hold hold'
    · rcases mem_set hc with heq | hc
      · cases heq
        exact Function.update_self ..
      · have ha := hs.held hc
        have hne : key' ≠ key := by
          rintro rfl
          rw [hactive] at ha
          cases ha
        exact (Function.update_of_ne hne ..).trans ha
    · have hj' := hholders j
      rw [List.length_append, List.length_singleton, Nat.lt_succ_iff_lt_or_eq] at hj
      rcases hj with hj | rfl
      · have hne : s.counts.length ≠ j := hj.ne'
        simp only [reduceCtorEq, ↓reduceIte, Option.some.injEq, hne] at hj'
        rw [List.getElem?_append_left hj, hs.count j hj]
        exact congrArg some hj'.symm
      · simp only [reduceCtorEq, ↓reduceIte, hnew] at hj'
        rw [List.getElem?_append_right (le_refl _), Nat.sub_self]
        exact congrArg some hj'.symm
    · have hj' := hholders j
      dsimp only
      rcases of_update_some ha with ⟨-, rfl⟩ | ⟨-, ha⟩
      · simp only [reduceCtorEq, ↓reduceIte] at hj'
        omega
      · have hpos := hs.pos ha
        simp only [reduceCtorEq, ↓reduceIte] at hj'
        omega

theorem Counted.release [DecidableEq κ] (hs : Counted s) (h : s.clients[t]? = some (key, some slot)) :
    Counted (s.release t key slot) := by
  have hactive := hs.held (List.mem_of_getElem? h)
  have hlast := hs.isLast_iff h
  have hpos := holders_pos h
  have hholders := @holders_set _ s t key (some slot) none h
  -- what is active afterwards was active before, and is held by someone else
  have hafter {key' : κ} {j : Nat} (ha : (s.release t key slot).active key' = some j) :
      s.active key' = some j ∧ (j = slot → holders s.clients slot ≠ 1) := by
    rw [Leases.release] at ha
    dsimp only at ha
    split at ha
    · obtain ⟨hne, hold⟩ := of_update_none ha
      refine ⟨hold, ?_⟩
      rintro rfl
      exact absurd (hs.active_inj hold hactive) hne
    · next hnot => exact ⟨ha, fun _ hone ↦ hnot (hlast.mpr hone)⟩
  refine ⟨fun ha ↦ ?_, fun ha ha' ↦ hs.active_inj (hafter ha).1 (hafter ha').1,
    fun {key' j} hc ↦ ?_, fun j hj ↦ ?_, fun {key' j} ha ↦ ?_⟩
  · rw [Leases.release, List.length_modify]
    exact hs.active_lt (hafter ha).1
  · have hin : (key', some j) ∈ s.clients := (mem_set hc).resolve_left fun heq ↦ by cases heq
    have ha := hs.held hin
    rw [Leases.release]
    dsimp only
    split
    · next hyes =>
      refine (Function.update_of_ne ?_ ..).trans ha
      rintro rfl
      -- nobody else holds the slot
      obtain rfl : slot = j := Option.some.inj (hactive.symm.trans ha)
      have hnone := hholders slot
      have hsome : 0 < holders (s.clients.set t (key', none)) slot :=
        List.countP_pos_iff.mpr ⟨_, hc, decide_eq_true rfl⟩
      have hone := hlast.mp hyes
      simp only [↓reduceIte, reduceCtorEq] at hnone
      omega
    · exact ha
  · rw [Leases.release, List.length_modify] at hj
    have hj' := hholders j
    rw [Leases.release, List.getElem?_modify, hs.count j hj]
    by_cases heq : slot = j
    · subst heq
      simp only [↓reduceIte, reduceCtorEq, Nat.add_zero] at hj' ⊢
      refine congrArg some ?_
      exact Nat.sub_eq_of_eq_add hj'.symm
    · simp only [heq, Option.some.injEq, ↓reduceIte, reduceCtorEq, Nat.add_zero] at hj' ⊢
      exact congrArg some hj'.symm
  · obtain ⟨ha, hne⟩ := hafter ha
    have hj' := hholders j
    have hposj := hs.pos ha
    rw [Leases.release]
    dsimp only
    by_cases heq : slot = j
    · subst heq
      have := hne rfl
      simp only [↓reduceIte, reduceCtorEq] at hj'
      omega
    · simp only [heq, Option.some.injEq, ↓reduceIte, reduceCtorEq] at hj'
      omega

/-- Every step keeps the counts right. -/
theorem Counted.step [DecidableEq κ] (hs : Counted s) (h : Step s s') : Counted s' := by
  cases h with
  | come key => exact hs.come key
  | acquire h => exact hs.acquire h
  | release h => exact hs.release h

/-- A key whose clients hold nothing has no active slot. -/
theorem Counted.active_eq_none (hs : Counted s) (h : ∀ c ∈ s.clients, c.1 = key → c.2 = none) :
    s.active key = none := by
  cases hactive : s.active key with
  | none => rfl
  | some slot =>
    obtain ⟨⟨key', held⟩, hc, hheld⟩ := List.countP_pos_iff.mp (hs.pos hactive)
    obtain rfl : held = some slot := of_decide_eq_true hheld
    cases h _ hc (hs.active_inj (hs.held hc) hactive)

/-! ## Slots and keys -/

/-- A slot serves one key. -/
structure Keyed (s : Leases κ) : Prop where
  lt : ∀ {slot key}, s.Serves slot key → slot < s.counts.length
  unique : ∀ {slot key key'}, s.Serves slot key → s.Serves slot key' → key = key'

/-- With right counts a slot that is held is active, so it serves one key. -/
theorem Counted.keyed (hs : Counted s) : Keyed s := by
  have hactive {slot : Nat} {key : κ} (h : s.Serves slot key) : s.active key = some slot :=
    h.elim id hs.held
  exact ⟨fun h ↦ hs.active_lt (hactive h), fun h h' ↦ hs.active_inj (hactive h) (hactive h')⟩

theorem keyed_empty : Keyed (empty : Leases κ) where
  lt h := by rcases h with h | h <;> cases h
  unique h := by rcases h with h | h <;> cases h

/-- What serves a key after a step served it before, or is new. -/
theorem Step.serves [DecidableEq κ] (h : Step s s') : ∃ key₀, ∀ {slot key}, s'.Serves slot key →
    s.Serves slot key ∨ slot = s.counts.length ∧ slot < s'.counts.length ∧ key = key₀ := by
  cases h with
  | come key =>
    refine ⟨key, fun hserves ↦ .inl ?_⟩
    rcases hserves with ha | hc
    · exact .inl ha
    · rcases List.mem_append.mp hc with hc | hc
      · exact .inr hc
      · cases List.mem_singleton.mp hc
  | @acquire t key h =>
    refine ⟨key, fun {slot key'} hserves ↦ ?_⟩
    rw [Leases.acquire] at hserves ⊢
    cases hactive : s.active key with
    | some j =>
      rw [hactive] at hserves
      rcases hserves with ha | hc
      · exact .inl (.inl ha)
      · rcases mem_set hc with heq | hc
        · cases heq
          exact .inl (.inl hactive)
        · exact .inl (.inr hc)
    | none =>
      rw [hactive] at hserves
      have hlt : s.counts.length < (s.counts ++ [1]).length := by
        rw [List.length_append]
        exact Nat.lt_succ_self _
      rcases hserves with ha | hc
      · rcases of_update_some ha with ⟨hkey, hslot⟩ | ⟨-, hold⟩
        · exact .inr ⟨hslot, hslot ▸ hlt, hkey⟩
        · exact .inl (.inl hold)
      · rcases mem_set hc with heq | hc
        · cases heq
          exact .inr ⟨rfl, hlt, rfl⟩
        · exact .inl (.inr hc)
  | @release t j key h =>
    refine ⟨key, fun {slot key'} hserves ↦ .inl ?_⟩
    rcases hserves with ha | hc
    · rw [Leases.release] at ha
      dsimp only at ha
      split at ha
      · exact .inl (of_update_none ha).2
      · exact .inl ha
    · exact .inr ((mem_set hc).resolve_left fun heq ↦ by cases heq)

theorem Step.length_le [DecidableEq κ] (h : Step s s') : s.counts.length ≤ s'.counts.length := by
  cases h with
  | come key => exact le_rfl
  | acquire h =>
    rw [Leases.acquire]
    split
    · exact (List.length_modify ..).ge
    · rw [List.length_append]
      exact Nat.le_add_right ..
  | release h => exact (List.length_modify ..).ge

theorem Keyed.step [DecidableEq κ] (hs : Keyed s) (h : Step s s') : Keyed s' := by
  obtain ⟨key₀, hserves⟩ := h.serves
  refine ⟨fun hk ↦ ?_, fun hk hk' ↦ ?_⟩
  · rcases hserves hk with hk | ⟨-, hlt, -⟩
    · exact (hs.lt hk).trans_le h.length_le
    · exact hlt
  · rcases hserves hk with hk | ⟨heq, -, hnew⟩ <;> rcases hserves hk' with hk' | ⟨heq', -, hnew'⟩
    · exact hs.unique hk hk'
    · exact absurd (heq' ▸ hs.lt hk) (Nat.lt_irrefl _)
    · exact absurd (heq ▸ hs.lt hk') (Nat.lt_irrefl _)
    · exact hnew.trans hnew'.symm

theorem serves_abandon (h : (s.abandon t key).Serves slot key') : s.Serves slot key' := by
  rcases h with ha | hc
  · exact .inl ha
  · exact .inr ((mem_set hc).resolve_left fun heq ↦ by cases heq)

theorem Keyed.abandon (hs : Keyed s) (t : Nat) (key : κ) : Keyed (s.abandon t key) :=
  ⟨fun hk ↦ hs.lt (serves_abandon hk), fun hk hk' ↦
    hs.unique (serves_abandon hk) (serves_abandon hk')⟩

end Leases

end Lilsync.Lib
