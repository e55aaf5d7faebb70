import Lilsync.Lib.Posix.Resolve

/-!
# The names of a file

Which calls give a file a new name.  Only `rename` does, and it takes the old
one away.
-/

namespace Lilsync.Lib.Posix

open Std (ExtTreeMap)

namespace Disk

variable {d d' : Disk} {p q real dest : Path} {o : Obj}

/-! ## Objects after a change -/

@[simp] theorem obj_nil (d : Disk) : d.obj [] = some (.dir 0o755) := rfl

theorem obj_of_ne_nil (h : p ≠ []) : d.obj p = d.objects[p]? := if_neg h

theorem obj_put (d : Disk) (hp : p ≠ []) (o : Obj) (q : Path) :
    (d.put p o).obj q = if p = q then some o else d.obj q := by
  by_cases hq : q = []
  · rw [hq, if_neg hp, obj_nil, obj_nil]
  · rw [obj_of_ne_nil hq, obj_of_ne_nil hq, put, OrdMap.getElem?_insert_eq]

theorem obj_clear (d : Disk) (hq : q ≠ []) :
    (d.clear p).obj q = if p <+: q then none else d.obj q := by
  rw [obj_of_ne_nil hq, obj_of_ne_nil hq, clear]
  dsimp only
  rw [ExtTreeMap.getElem?_filter']
  by_cases h : p <+: q
  · rw [if_pos h, List.isPrefixOf_iff_prefix.mpr h]
    cases d.objects[q]? <;> rfl
  · rw [if_neg h, eq_false_of_ne_true fun hp ↦ h (List.isPrefixOf_iff_prefix.mp hp)]
    cases d.objects[q]? <;> rfl

theorem obj_erase (d : Disk) (hq : q ≠ []) :
    ({ d with objects := d.objects.erase p } : Disk).obj q = if p = q then none else d.obj q := by
  rw [obj_of_ne_nil hq, obj_of_ne_nil hq]
  exact OrdMap.getElem?_erase_eq ..

/-! ## What a rename does -/

/-- A rename does nothing, or it moves an object that is not a directory. -/
theorem rename_cases (h : d.rename p q = .ok d') :
    ∃ real o dest, d.resolve false p = .ok real ∧ d.obj real = some o ∧ o.isDir = false ∧
      d.resolve false q = .ok dest ∧ (∀ m, d.obj dest ≠ some (.dir m)) ∧
      (d' = d ∨ d' = ({ d with objects := d.objects.erase real }.put dest o)) := by
  rw [rename, find] at h
  cases hp : d.resolve false p with
  | error e =>
    rw [hp] at h
    cases h
  | ok real =>
    rw [hp] at h
    dsimp only at h
    cases ho : d.obj real with
    | none =>
      rw [ho] at h
      cases h
    | some o =>
      rw [ho] at h
      cases hq : d.resolve false q with
      | error e =>
        rw [hq] at h
        cases h
      | ok dest =>
        rw [hq] at h
        dsimp only at h
        split at h
        · cases h
        · next hdir =>
          split at h
          · cases h
          · next hold =>
            refine ⟨real, o, dest, rfl, ho, eq_false_of_ne_true hdir, rfl, hold, ?_⟩
            split at h <;> cases h
            · exact .inl rfl
            · exact .inr rfl

/-! ## Names -/

/-- The path is a name of the file. -/
def Names (d : Disk) (i : Nat) (p : Path) : Prop := d.obj p = some (.file i)

instance (d : Disk) (i : Nat) (p : Path) : Decidable (d.Names i p) :=
  inferInstanceAs (Decidable (_ = _))

theorem Names.ne_nil {i : Nat} (h : d.Names i p) : p ≠ [] := by
  rintro rfl
  cases h

theorem Names.inj {i j : Nat} (hi : d.Names i p) (hj : d.Names j p) : i = j := by
  rw [Names, hi] at hj
  cases hj
  rfl

/-- The names of a file. -/
def namesOf (d : Disk) (i : Nat) : List Path := d.objects.keys.filter fun p ↦ d.Names i p

theorem mem_namesOf {i : Nat} (h : d.Names i p) : p ∈ d.namesOf i := by
  refine List.mem_filter.mpr ⟨?_, decide_eq_true h⟩
  rw [ExtTreeMap.mem_keys, ExtTreeMap.mem_iff_isSome_getElem?, ← obj_of_ne_nil h.ne_nil]
  exact Option.isSome_iff_exists.mpr ⟨_, h⟩

/-- No file has a new name. -/
def NoNewNames (d d' : Disk) : Prop := ∀ i p, d'.Names i p → d.Names i p

instance : IsPreorder Disk NoNewNames where
  refl _ _ _ h := h
  trans _ _ _ h h' i p hp := h i p (h' i p hp)

theorem noNewNames_put (ho : ∀ i, o ≠ .file i) : NoNewNames d (d.put p o) := by
  intro i q hq
  rw [Names, obj_of_ne_nil hq.ne_nil]
  have hq' := hq
  rw [Names, obj_of_ne_nil hq.ne_nil, put, OrdMap.getElem?_insert_eq] at hq'
  split at hq'
  · exact absurd (Option.some.inj hq') (ho i)
  · exact hq'

theorem noNewNames_clear : NoNewNames d (d.clear p) := by
  intro i q hq
  have hq' := hq
  rw [Names, obj_clear d hq.ne_nil] at hq'
  split at hq'
  · cases hq'
  · exact hq'

theorem noNewNames_make (ho : ∀ i, o ≠ .file i) (h : d.make p o = .ok d') : NoNewNames d d' := by
  rw [make] at h
  split at h
  · cases h
  · split at h <;> cases h
    exact noNewNames_put ho

theorem noNewNames_mkdir (h : d.mkdir p = .ok d') : NoNewNames d d' :=
  noNewNames_make (o := .dir 0o755) nofun h

theorem noNewNames_symlink {target : Name} (h : d.symlink target p = .ok d') :
    NoNewNames d d' := by
  rw [symlink] at h
  split at h
  · cases h
  · exact noNewNames_make (o := .symlink target) nofun h

theorem noNewNames_unlink (h : d.unlink p = .ok d') : NoNewNames d d' := by
  rw [unlink] at h
  split at h
  · cases h
  · split at h <;> cases h
    exact noNewNames_clear

theorem noNewNames_removeTree (h : d.removeTree p = .ok d') : NoNewNames d d' := by
  rw [removeTree] at h
  split at h
  · cases h
  · split at h <;> cases h
    exact noNewNames_clear

theorem noNewNames_chmod {mode : UInt32} (h : d.chmod p mode = .ok d') : NoNewNames d d' := by
  rw [chmod] at h
  split at h
  · cases h
  · obtain rfl := Except.ok.inj h
    exact noNewNames_put (fun _ ↦ nofun)
  · obtain rfl := Except.ok.inj h
    exact fun _ _ hp ↦ hp
  · obtain rfl := Except.ok.inj h
    exact fun _ _ hp ↦ hp

theorem noNewNames_mkdirAll (names : List Name) (d : Disk) :
    NoNewNames d (mkdirAll names d).2 := by
  induction names with
  | nil => exact refl_of NoNewNames d
  | cons name parent ih =>
    rw [mkdirAll.eq_def]
    dsimp only
    split
    · next hd => exact noNewNames_mkdir hd
    · split
      · split <;> exact refl_of NoNewNames d
      · split
        · next hrec => exact hrec ▸ ih
        · next hrec =>
          rw [hrec] at ih
          split
          · next hd => exact trans_of NoNewNames ih (noNewNames_mkdir hd)
          · split <;> exact ih

/-! ## Files with one name -/

/-- Outside `X`, a file of `F` has at most one name. -/
def Sole (F : List Nat) (X : List Path) (d : Disk) : Prop :=
  ∀ i ∈ F, ∀ p q, p ∉ X → q ∉ X → d.Names i p → d.Names i q → p = q

variable {F : List Nat} {X : List Path}

theorem Sole.of_noNewNames (h : Sole F X d) (hd : NoNewNames d d') : Sole F X d' :=
  fun i hi p q hp hq hip hiq ↦ h i hi p q hp hq (hd i p hip) (hd i q hiq)

/-- The files the moved object names after a rename: those it named, under the new name. -/
theorem names_of_rename {i : Nat} {x : Path} (hdest : dest ≠ [])
    (h : ({ d with objects := d.objects.erase real }.put dest o).Names i x)
    (ho : d.obj real = some o) : (x = dest ∧ d.Names i real) ∨ (x ≠ real ∧ d.Names i x) := by
  have hx := h.ne_nil
  rw [Names, obj_put _ hdest] at h
  split at h
  · next heq => exact .inl ⟨heq.symm, by rw [Names, ho, h]⟩
  · rw [obj_erase d hx] at h
    split at h
    · cases h
    · next hne => exact .inr ⟨Ne.symm hne, h⟩

/-- A rename moves a name, if the old one is not one of those that do not count. -/
theorem Sole.rename (h : Sole F X d) (hX : ∀ real, d.resolve false p = .ok real → real ∉ X)
    (hr : d.rename p q = .ok d') : Sole F X d' := by
  obtain ⟨real, o, dest, hreal, ho, -, -, hdest, rfl | rfl⟩ := rename_cases hr
  · exact h
  · have hne : dest ≠ [] := by
      rintro rfl
      exact hdest _ rfl
    have hold := hX real hreal
    intro i hi x y hx hy hix hiy
    rcases names_of_rename hne hix ho with ⟨rfl, hi₁⟩ | ⟨hxr, hi₁⟩ <;>
      rcases names_of_rename hne hiy ho with ⟨rfl, hi₂⟩ | ⟨hyr, hi₂⟩
    · rfl
    · exact absurd (h i hi y real hy hold hi₂ hi₁) hyr
    · exact absurd (h i hi x real hx hold hi₁ hi₂) hxr
    · exact h i hi x y hx hy hi₁ hi₂

/-- The names after a file was put at a path. -/
theorem names_of_put {i j : Nat} {x : Path} (hp : p ≠ []) (h : (d.put p (.file i)).Names j x) :
    (x = p ∧ j = i) ∨ d.Names j x := by
  rw [Names, obj_put d hp] at h
  split at h
  · next heq =>
    cases h
    exact .inl ⟨heq.symm, rfl⟩
  · exact .inr h

/-- A file without a name that counts is given one. -/
theorem Sole.link {i : Nat} (h : Sole F X d) (hp : p ≠ []) (hi : ∀ q, q ∉ X → ¬ d.Names i q) :
    Sole F X (d.put p (.file i)) := by
  intro j hj x y hx hy hjx hjy
  rcases names_of_put hp hjx with ⟨hxp, hji⟩ | hjx <;>
    rcases names_of_put hp hjy with ⟨hyp, hji'⟩ | hjy
  · rw [hxp, hyp]
  · exact absurd (hji ▸ hjy) (hi y hy)
  · exact absurd (hji' ▸ hjx) (hi x hx)
  · exact h j hj x y hx hy hjx hjy

/-- A new file has the name it is made under. -/
theorem Sole.create {i : Nat} (h : Sole F X d) (hp : p ≠ []) (hi : ∀ q, ¬ d.Names i q) :
    Sole (i :: F) X (d.put p (.file i)) := by
  have hnew : Sole (i :: F) X d := by
    intro j hj x y hx hy hjx hjy
    rcases List.mem_cons.mp hj with rfl | hj
    · exact absurd hjx (hi x)
    · exact h j hj x y hx hy hjx hjy
  exact hnew.link hp fun q _ ↦ hi q

end Disk

end Lilsync.Lib.Posix
