import Lilsync.Lib.Posix

/-!
# Path resolution

How the resolution of a path follows from the resolution of its parts.
-/

namespace Lilsync.Lib.Posix

namespace Disk

variable {d : Disk} {budget : Nat} {cur dir real : Path} {x : Name} {names rest : List Name}

/-! ## The last name -/

/-- A name that stands for an entry of the directory it is looked up in. -/
def IsEntry (x : Name) : Prop := x ≠ dot ∧ x ≠ dotdot

theorem scanNames_singleton (hx : IsEntry x) (cur : Path) :
    d.scanNames false cur [x] = .done (cur ++ [x]) := by
  rw [scanNames, if_neg hx.1, if_neg hx.2]
  split <;> simp [scanNames]

/-- If the names up to the last one lead to a directory, the last one is looked up
there; a link on the way is the same with and without the last name. -/
theorem scanNames_concat (hx : IsEntry x) :
    (∀ real, d.scanNames false cur (names ++ [x]) = .done real →
      ∃ dir, real = dir ++ [x] ∧ d.scanNames true cur names = .done dir) ∧
    ∀ dir target rest, d.scanNames false cur (names ++ [x]) = .link dir target rest →
      ∃ rest', rest = rest' ++ [x] ∧ d.scanNames true cur names = .link dir target rest' := by
  induction names generalizing cur with
  | nil =>
    rw [List.nil_append, scanNames_singleton hx]
    exact ⟨fun real h ↦ ⟨cur, by cases h; rfl, rfl⟩, nofun⟩
  | cons n names ih =>
    have hne : names ++ [x] ≠ [] := by simp
    rw [List.cons_append, scanNames, scanNames]
    by_cases hdot : n = dot
    · simpa only [hdot, ↓reduceIte] using ih
    · by_cases hdd : n = dotdot
      · simpa only [hdd, if_neg (show dotdot ≠ dot by decide), ↓reduceIte] using ih
      · simp only [hdot, hdd, ↓reduceIte]
        match d.obj (cur ++ [n]) with
        | some (.dir _) => exact ih
        | some (.symlink target) =>
          simp only [hne, false_and, not_true_eq_false, and_false, ↓reduceIte]
          exact ⟨nofun, fun dir t rest h ↦ by cases h; exact ⟨names, rfl, rfl⟩⟩
        | some (.file _) => simp [hne]
        | some .special => simp [hne]
        | none => simp [hne]

/-! ## One link at a time -/

section Step

variable {follow : Bool} {target : Name}

theorem resolveFrom_done (h : d.scanNames follow cur names = .done real) :
    d.resolveFrom follow budget cur names = .ok real := by
  rw [resolveFrom.eq_def]
  simp only [h]

theorem resolveFrom_fail {e : Errno} (h : d.scanNames follow cur names = .fail e) :
    d.resolveFrom follow budget cur names = .error e := by
  rw [resolveFrom.eq_def]
  simp only [h]

theorem resolveFrom_zero (h : d.scanNames follow cur names = .link dir target rest) :
    d.resolveFrom follow 0 cur names = .error .loop := by
  rw [resolveFrom.eq_def]
  simp only [h]

theorem resolveFrom_succ (h : d.scanNames follow cur names = .link dir target rest) :
    d.resolveFrom follow (budget + 1) cur names =
      d.resolveFrom follow budget (targetStart dir target) (targetNames target ++ rest) := by
  rw [resolveFrom.eq_def]
  simp only [h]

end Step

theorem resolveFrom_concat (hx : IsEntry x)
    (h : d.resolveFrom false budget cur (names ++ [x]) = .ok real) :
    ∃ dir, real = dir ++ [x] ∧ d.resolveFrom true budget cur names = .ok dir := by
  induction budget generalizing cur names with
  | zero =>
    cases hs : d.scanNames false cur (names ++ [x]) with
    | done r =>
      obtain ⟨dir, hr, hd⟩ := (scanNames_concat hx).1 r hs
      rw [resolveFrom_done hs] at h
      exact ⟨dir, (Except.ok.inj h).symm.trans hr, resolveFrom_done hd⟩
    | fail e =>
      rw [resolveFrom_fail hs] at h
      cases h
    | link dir target rest =>
      rw [resolveFrom_zero hs] at h
      cases h
  | succ budget ih =>
    cases hs : d.scanNames false cur (names ++ [x]) with
    | done r =>
      obtain ⟨dir, hr, hd⟩ := (scanNames_concat hx).1 r hs
      rw [resolveFrom_done hs] at h
      exact ⟨dir, (Except.ok.inj h).symm.trans hr, resolveFrom_done hd⟩
    | fail e =>
      rw [resolveFrom_fail hs] at h
      cases h
    | link dir target rest =>
      obtain ⟨rest', rfl, hd⟩ := (scanNames_concat hx).2 dir target rest hs
      rw [resolveFrom_succ hs, ← List.append_assoc] at h
      rw [resolveFrom_succ hd]
      exact ih h

/-- What a path stands for lies, under its last name, where its parent leads. -/
theorem resolve_concat {p : Path} (hx : IsEntry x) (h : d.resolve false (p ++ [x]) = .ok real) :
    ∃ dir, real = dir ++ [x] ∧ d.resolve true p = .ok dir :=
  resolveFrom_concat hx h

end Disk

end Lilsync.Lib.Posix
