import Lilsync.Replica.Stamp

/-!
# What recording does at a path

Recording something at a path may bury what is live below the path, under fresh
tombstones.  Everything else in the index stays.
-/

namespace Lilsync

open Std (ExtTreeMap)
open Lilsync.Lib

namespace Replica

variable {r r' : Replica} {st : Recorded} {remote : Entry} {path k : Str}

/-! ## Burying -/

/-- A live entry was buried: a fresh tombstone is in its place. -/
def Entombs (r r' : Replica) (k : Str) : Prop :=
  ∃ old version, r.entries[k]? = some old ∧ old.kind ≠ .tombstone ∧
    r'.entries[k]? = some (tombstoneEntry k old version) ∧ version.origin = r.origin ∧
    r.lamport < version.lamport ∧ version.lamport ≤ r'.lamport

theorem Entombs.mono {r₀ : Replica} (h : Entombs r r' k) (he : r₀.entries[k]? = r.entries[k]?)
    (ho : r.origin = r₀.origin) (hl : r₀.lamport ≤ r.lamport) : Entombs r₀ r' k := by
  obtain ⟨old, version, hold, hlive, hnew, horigin, hlt, hle⟩ := h
  exact ⟨old, version, he.trans hold, hlive, hnew, horigin.trans ho, Nat.lt_of_le_of_lt hl hlt, hle⟩

theorem tombstonePath_cases (st : Recorded) (path k : Str) :
    (tombstonePath st path).1.entries[k]? = st.1.entries[k]? ∨
      k = path ∧ Entombs st.1 (tombstonePath st path).1 k := by
  rw [tombstonePath]
  cases h : st.1.entries[path]? with
  | none => exact .inl rfl
  | some old =>
    dsimp only
    split
    · exact .inl rfl
    · next hlive =>
      change (st.1.entries.insert path _)[k]? = _ ∨ _
      rw [OrdMap.getElem?_insert_eq]
      by_cases hk : path = k
      · subst hk
        refine .inr ⟨rfl, old, st.1.nextVersion.1, h, hlive, ?_, rfl, Nat.lt_succ_self _, le_rfl⟩
        change (st.1.entries.insert path _)[path]? = _
        rw [OrdMap.getElem?_insert_eq, if_pos rfl]
        rfl
      · rw [if_neg hk]
        exact .inl rfl

/-- Burying a list of paths leaves a path alone or buries it, if it is listed. -/
theorem foldl_tombstonePath_cases (l : List Str) (st : Recorded) (k : Str) :
    (l.foldl tombstonePath st).1.entries[k]? = st.1.entries[k]? ∨
      k ∈ l ∧ Entombs st.1 (l.foldl tombstonePath st).1 k := by
  induction l generalizing st with
  | nil => exact .inl rfl
  | cons path l ih =>
    rw [List.foldl_cons]
    have hgrown := (stamps_tombstonePath st path).grown
    rcases ih (tombstonePath st path) with hrest | ⟨hmem, hrest⟩
    · rw [hrest]
      refine (tombstonePath_cases st path k).imp id ?_
      rintro ⟨rfl, old, version, hold, hlive, hnew, horigin, hlt, hle⟩
      refine ⟨List.mem_cons_self, old, version, hold, hlive, hrest.trans hnew, horigin, hlt, ?_⟩
      exact hle.trans (stamps_foldl (fun st p _ ↦ stamps_tombstonePath st p) _).grown.lamport_le
    · rcases tombstonePath_cases st path k with hfirst | ⟨-, old, version, -, -, hnew, -⟩
      · exact .inr ⟨List.mem_cons_of_mem _ hmem,
          hrest.mono hfirst.symm hgrown.origin_eq hgrown.lamport_le⟩
      · -- a tombstone is not buried again
        obtain ⟨old', -, hold', hlive', -⟩ := hrest
        obtain rfl := Option.some.inj (hold'.symm.trans hnew)
        exact absurd rfl hlive'

theorem Entombs.notLive (h : Entombs r r' k) : NotLive r'.entries k := by
  obtain ⟨old, version, -, -, hnew, -⟩ := h
  intro e he
  obtain rfl := Option.some.inj (hnew.symm.trans he)
  rfl

theorem notLive_tombstonePath (st : Recorded) (path : Str) :
    NotLive (tombstonePath st path).1.entries path := by
  intro e he
  rw [tombstonePath] at he
  cases hold : st.1.entries[path]? with
  | none =>
    rw [hold] at he
    cases hold.symm.trans he
  | some old =>
    rw [hold] at he
    dsimp only at he
    split at he
    · next hkind =>
      obtain rfl := Option.some.inj (hold.symm.trans he)
      exact hkind
    · change (st.1.entries.insert path _)[path]? = _ at he
      rw [OrdMap.getElem?_insert_eq, if_pos rfl] at he
      obtain rfl := Option.some.inj he
      rfl

/-- Nothing that was to be buried is live. -/
theorem notLive_foldl_tombstonePath {l : List Str} (h : k ∈ l) (st : Recorded) :
    NotLive (l.foldl tombstonePath st).1.entries k := by
  induction l generalizing st with
  | nil => cases h
  | cons path l ih =>
    rw [List.foldl_cons]
    rcases List.mem_cons.mp h with rfl | h
    · rcases foldl_tombstonePath_cases l (tombstonePath st k) k with heq | ⟨-, hentombs⟩
      · rw [NotLive, heq]
        exact notLive_tombstonePath st k
      · exact hentombs.notLive
    · exact ih h _

/-- Nothing of what was to be buried in the whole index is live. -/
theorem notLive_foldl_filter_keys {p : Str → Bool} (h : p k = true) (st : Recorded) :
    NotLive ((st.1.entries.keys.filter p).foldl tombstonePath st).1.entries k := by
  by_cases hk : k ∈ st.1.entries.keys
  · exact notLive_foldl_tombstonePath (List.mem_filter.mpr ⟨hk, h⟩) st
  · rcases foldl_tombstonePath_cases _ st k with heq | ⟨hmem, -⟩
    · intro e he
      have hold := heq.symm.trans he
      rw [ExtTreeMap.mem_keys, ExtTreeMap.mem_iff_isSome_getElem?, hold] at hk
      exact absurd rfl hk
    · exact absurd (List.mem_filter.mp hmem).1 hk

/-- Nothing below the path is live once what is there was buried. -/
theorem notLive_tombstoneChildDescendants (h : SlashPath.Below slash path k) (st : Recorded) :
    NotLive (tombstoneChildDescendants path st).1.entries k :=
  notLive_foldl_filter_keys (decide_eq_true h) st

/-- Nothing at or below the path is live once all of it was buried. -/
theorem notLive_tombstoneDescendants (h : k = path ∨ SlashPath.Below slash path k)
    (st : Recorded) : NotLive (tombstoneDescendants path st).1.entries k :=
  notLive_foldl_filter_keys (decide_eq_true h) st

/-- Burying a list of paths notes paths of the list only. -/
theorem mem_of_mem_changes_foldl_tombstonePath {l : List Str} {c : Change}
    (h : c ∈ (l.foldl tombstonePath st).2) : c ∈ st.2 ∨ c.path ∈ l := by
  induction l generalizing st with
  | nil => exact .inl h
  | cons path l ih =>
    rcases ih h with h | h
    · rw [tombstonePath] at h
      split at h
      · split at h
        · exact .inl h
        · rcases List.mem_append.mp h with h | h
          · exact .inl h
          · rw [List.mem_singleton.mp h]
            exact .inr List.mem_cons_self
      · exact .inl h
    · exact .inr (List.mem_cons_of_mem _ h)

/-! ## Remote entries -/

/-- Below an entry that is no directory nothing is live. -/
theorem notLive_recordRemote (hkind : remote.kind ≠ .dir)
    (h : SlashPath.Below slash remote.path k) : NotLive (recordRemote r remote).1.entries k := by
  rw [recordRemote]
  dsimp only
  rw [if_pos hkind]
  exact notLive_tombstoneChildDescendants h _

/-- A remote entry changes its own path, and what is below it if it is no directory. -/
theorem path_of_mem_changes_recordRemote {c : Change} (h : c ∈ (recordRemote r remote).2) :
    c.path = remote.path ∨ remote.kind ≠ .dir ∧ SlashPath.Below slash remote.path c.path := by
  rw [recordRemote] at h
  dsimp only at h
  rcases List.mem_cons.mp h with rfl | h
  · exact .inl rfl
  · split at h
    · next hkind =>
      rcases mem_of_mem_changes_foldl_tombstonePath h with h | h
      · cases h
      · exact .inr ⟨hkind, of_decide_eq_true (List.mem_filter.mp h).2⟩
    · cases h

theorem recordRemote_cases (r : Replica) (remote : Entry) (k : Str) :
    (recordRemote r remote).1.entries[k]? = (r.receive remote).entries[k]? ∨
      k ≠ remote.path ∧ Entombs r (recordRemote r remote).1 k := by
  rw [recordRemote]
  dsimp only
  split
  · refine (foldl_tombstonePath_cases _ _ k).imp id ?_
    rintro ⟨hmem, hentombs⟩
    have hbelow : SlashPath.Below slash remote.path k :=
      of_decide_eq_true (List.mem_filter.mp hmem).2
    have hne : remote.path ≠ k := fun h ↦ SlashPath.Below.irrefl (h ▸ hbelow)
    refine ⟨hne.symm, hentombs.mono ?_ rfl (Nat.le_max_left _ _)⟩
    exact (OrdMap.getElem?_insert_eq ..).trans (if_neg hne) |>.symm
  · exact .inl rfl

/-- An entry of the index after an entry came in: an old one, the new one, or a
fresh tombstone. -/
theorem of_getElem?_recordRemote {x : Entry} (hx : (recordRemote r remote).1.entries[k]? = some x) :
    r.entries[k]? = some x ∨ (k = remote.path ∧ x = remote) ∨
      (x.path = k ∧ x.kind = .tombstone ∧ x.version.origin = r.origin ∧
        r.lamport < x.version.lamport) := by
  rcases recordRemote_cases r remote k with heq | ⟨-, old, v, -, -, hnew, ho, hlt, -⟩
  · rw [heq, getElem?_receive] at hx
    split at hx
    · next hk => exact .inr (.inl ⟨hk.symm, (Option.some.inj hx).symm⟩)
    · exact .inl hx
  · obtain rfl := Option.some.inj (hnew.symm.trans hx)
    exact .inr (.inr ⟨rfl, rfl, ho, hlt⟩)

/-! ## Local entries -/

theorem tombstoneChildDescendants_cases (path : Str) (st : Recorded) (k : Str) :
    (tombstoneChildDescendants path st).1.entries[k]? = st.1.entries[k]? ∨
      SlashPath.Below slash path k ∧ Entombs st.1 (tombstoneChildDescendants path st).1 k := by
  refine (foldl_tombstonePath_cases _ st k).imp id (And.imp (fun hmem ↦ ?_) id)
  exact of_decide_eq_true (List.mem_filter.mp hmem).2

/-- At the path itself the index shows what was observed. -/
theorem getElem?_updateEntry_self (path : Str) (live : Entry) (st : Recorded) :
    ∃ e, (updateEntry path live st).1.entries[path]? = some e ∧ sameObservedState e live := by
  have hstamp : ∃ e, (stamp st path st.1.entries[path]? fun version ↦
      { live with version }).1.entries[path]? = some e ∧ sameObservedState e live := by
    refine ⟨{ live with version := st.1.nextVersion.1 }, ?_, sameObservedState_iff.mpr rfl⟩
    exact (OrdMap.getElem?_insert_eq ..).trans (if_pos rfl)
  rw [updateEntry]
  dsimp only
  split
  · next hsame =>
    cases he : st.1.entries[path]? with
    | none => simp [he] at hsame
    | some e => exact ⟨e, rfl, by simpa [he] using hsame⟩
  · split
    · obtain ⟨e, he, hse⟩ := hstamp
      refine ⟨e, ?_, hse⟩
      rcases tombstoneChildDescendants_cases path _ path with heq | ⟨hbelow, -⟩
      · exact heq.trans he
      · exact absurd hbelow SlashPath.Below.irrefl
    · exact hstamp

/-- At any other path nothing changes, unless it is buried. -/
theorem updateEntry_cases {live : Entry} (st : Recorded) (hne : k ≠ path) :
    (updateEntry path live st).1.entries[k]? = st.1.entries[k]? ∨
      SlashPath.Below slash path k ∧ Entombs st.1 (updateEntry path live st).1 k := by
  have hstamp : (stamp st path st.1.entries[path]? fun version ↦
      { live with version }).1.entries[k]? = st.1.entries[k]? :=
    (OrdMap.getElem?_insert_eq ..).trans (if_neg hne.symm)
  rw [updateEntry]
  dsimp only
  split
  · exact .inl rfl
  · split
    · rcases tombstoneChildDescendants_cases path _ k with heq | ⟨hbelow, hentombs⟩
      · exact .inl (heq.trans hstamp)
      · exact .inr ⟨hbelow, hentombs.mono hstamp.symm rfl (Nat.le_succ _)⟩
    · exact .inl hstamp

/-- Nothing is buried unless the path was a directory and is none any more. -/
theorem getElem?_updateEntry_of_not_replaces {live : Entry}
    (h : ¬ (st.1.entries[path]?.map Entry.kind = some .dir ∧ live.kind ≠ .dir)) (hne : path ≠ k) :
    (updateEntry path live st).1.entries[k]? = st.1.entries[k]? := by
  have hreplaces : (st.1.entries[path]?.any (·.kind == .dir) && live.kind != .dir) = false := by
    rw [Bool.eq_false_iff]
    intro htrue
    obtain ⟨hdir, hlive⟩ := Bool.and_eq_true_iff.mp htrue
    refine h ⟨?_, bne_iff_ne.mp hlive⟩
    cases hold : st.1.entries[path]? with
    | none =>
      rw [hold] at hdir
      cases hdir
    | some old =>
      rw [hold] at hdir
      exact congrArg some (eq_of_beq hdir)
  rw [updateEntry]
  simp only [hreplaces, Bool.false_eq_true, ↓reduceIte]
  split
  · rfl
  · exact (OrdMap.getElem?_insert_eq ..).trans (if_neg hne)

end Replica

end Lilsync
