import Lilsync.Lib.Posix.Names

/-!
# Trees

On a disk whose objects have proper names and lie in directories (`Tree`), the
real path of an object stands for the object, and a directory is listed with what
is in it.
-/

namespace Lilsync.Lib.Posix

open Std (ExtTreeMap)

/-- A name an object may have. -/
structure FileName (n : Name) : Prop where
  ne_nil : n ≠ []
  notMem : separator ∉ n
  ne_dot : n ≠ dot
  ne_dotdot : n ≠ dotdot

instance (n : Name) : Decidable (FileName n) :=
  decidable_of_iff (n ≠ [] ∧ separator ∉ n ∧ n ≠ dot ∧ n ≠ dotdot)
    ⟨fun ⟨h₁, h₂, h₃, h₄⟩ ↦ ⟨h₁, h₂, h₃, h₄⟩, fun ⟨h₁, h₂, h₃, h₄⟩ ↦ ⟨h₁, h₂, h₃, h₄⟩⟩

theorem FileName.isEntry {n : Name} (h : FileName n) : Disk.IsEntry n := ⟨h.ne_dot, h.ne_dotdot⟩

namespace Disk

variable {d : Disk} {p q cur : Path} {n : Name} {o : Obj} {follow : Bool}

/-- The objects have names, and each lies in a directory. -/
structure Tree (d : Disk) : Prop where
  fileName : ∀ p o, d.obj p = some o → ∀ n ∈ p, FileName n
  parent : ∀ p n o, d.obj (p ++ [n]) = some o → d.IsDirAt p

instance (d : Disk) (p : Path) : Decidable (d.IsDirAt p) :=
  decidable_of_iff ((d.obj p).any Obj.isDir) <| by
    rw [IsDirAt]
    cases d.obj p with
    | none => simp
    | some o => cases o <;> simp [Obj.isDir]

theorem mem_keys_of_obj (hne : p ≠ []) (h : d.obj p = some o) : p ∈ d.objects.keys := by
  rw [obj_of_ne_nil hne] at h
  exact ExtTreeMap.mem_keys.mpr (ExtTreeMap.mem_iff_isSome_getElem?.mpr (by simp [h]))

theorem exists_obj_of_mem_keys (h : p ∈ d.objects.keys) : ∃ o, d.obj p = some o := by
  by_cases hne : p = []
  · exact ⟨.dir 0o755, by rw [hne]; rfl⟩
  · rw [obj_of_ne_nil hne]
    exact Option.isSome_iff_exists.mp
      (ExtTreeMap.mem_iff_isSome_getElem?.mp (ExtTreeMap.mem_keys.mp h))

instance (d : Disk) : Decidable d.Tree :=
  decidable_of_iff (∀ p ∈ d.objects.keys, (∀ n ∈ p, FileName n) ∧ d.IsDirAt p.dropLast) <| by
    constructor
    · intro h
      refine ⟨fun p o ho n hn ↦ ?_, fun p n o ho ↦ ?_⟩
      · exact (h p (mem_keys_of_obj (List.ne_nil_of_mem hn) ho)).1 n hn
      · have hd := (h _ (mem_keys_of_obj (by simp) ho)).2
        rwa [List.dropLast_concat] at hd
    · intro h p hp
      obtain ⟨o, ho⟩ := exists_obj_of_mem_keys hp
      by_cases hne : p = []
      · subst hne
        exact ⟨by simp, 0o755, rfl⟩
      · refine ⟨h.fileName p o ho, ?_⟩
        rw [← List.dropLast_append_getLast hne] at ho
        exact h.parent _ _ o ho

/-! ## Paths through directories -/

/-- Names that lead through directories are followed to the end. -/
theorem scanNames_of_dirs {names : List Name} (hnames : ∀ n ∈ names, IsEntry n)
    (hdirs : ∀ b, b <+: names → b ≠ [] → b ≠ names → d.IsDirAt (cur ++ b))
    (hlast : follow → names ≠ [] → ∀ target, d.obj (cur ++ names) ≠ some (.symlink target)) :
    d.scanNames follow cur names = .done (cur ++ names) := by
  induction names generalizing cur with
  | nil => rw [scanNames, List.append_nil]
  | cons n rest ih =>
    have hn := hnames n List.mem_cons_self
    rw [scanNames, if_neg hn.1, if_neg hn.2]
    cases rest with
    | nil =>
      cases ho : d.obj (cur ++ [n]) with
      | none => simp
      | some o =>
        cases o with
        | dir m => simp [scanNames]
        | file i => simp
        | special => simp
        | symlink target =>
          cases follow with
          | false => simp
          | true => exact absurd ho (hlast rfl (by simp) target)
    | cons n' rest =>
      obtain ⟨m, hm⟩ := hdirs [n] (by simp) (by simp) (by simp)
      have hcur : cur ++ n :: n' :: rest = (cur ++ [n]) ++ n' :: rest := by simp
      rw [hm]
      dsimp only
      rw [hcur]
      refine ih (fun x hx ↦ hnames x (List.mem_cons_of_mem _ hx)) (fun b hb hne hne' ↦ ?_)
        fun hf hne target ↦ ?_
      · have hd := hdirs (n :: b) (by simpa using hb) (by simp) (by simpa using hne')
        simpa using hd
      · have hl := hlast hf (by simp) target
        rwa [hcur] at hl

theorem resolve_of_dirs (hnames : ∀ n ∈ p, IsEntry n)
    (hdirs : ∀ b, b <+: p → b ≠ [] → b ≠ p → d.IsDirAt b)
    (hlast : follow → p ≠ [] → ∀ target, d.obj p ≠ some (.symlink target)) :
    d.resolve follow p = .ok p :=
  resolveFrom_done (scanNames_of_dirs hnames hdirs hlast)

theorem obj_of_find {real : Path} (h : d.find follow p = .ok (real, o)) : d.obj real = some o := by
  rw [find] at h
  split at h
  · cases h
  · split at h
    · next ho =>
      obtain ⟨rfl, rfl⟩ := Prod.mk.inj (Except.ok.inj h)
      exact ho
    · cases h

/-! ## Objects of a tree -/

namespace Tree

/-- What an object lies in are directories. -/
theorem isDirAt (hT : d.Tree) (h : d.obj p = some o) (hq : q <+: p) (hne : q ≠ p) :
    d.IsDirAt q := by
  induction p using List.reverseRecOn generalizing o with
  | nil => exact absurd (List.prefix_nil.mp hq) hne
  | append_singleton p n ih =>
    rcases List.prefix_concat_iff.mp hq with heq | hq
    · exact absurd heq hne
    · obtain ⟨m, hm⟩ := hT.parent p n o h
      by_cases hqp : q = p
      · exact hqp ▸ ⟨m, hm⟩
      · exact ih hm hq hqp

/-- An object is found under its path. -/
theorem resolve (hT : d.Tree) (h : d.obj p = some o)
    (hlast : follow → ∀ target, o ≠ .symlink target) : d.resolve follow p = .ok p := by
  refine resolve_of_dirs (fun n hn ↦ (hT.fileName p o h n hn).isEntry)
    (fun b hb _ hne ↦ hT.isDirAt h hb hne) fun hf _ target ht ↦ ?_
  exact hlast hf target (Option.some.inj (h.symm.trans ht))

theorem find (hT : d.Tree) (h : d.obj p = some o)
    (hlast : follow → ∀ target, o ≠ .symlink target) : d.find follow p = .ok (p, o) := by
  rw [Disk.find, hT.resolve h hlast]
  dsimp only
  rw [h]

theorem lstat (hT : d.Tree) (h : d.obj p = some o) : d.lstat p = .ok o := by
  rw [Disk.lstat, hT.find h (by simp)]
  rfl

theorem stat (hT : d.Tree) (h : d.obj p = some o) (hlast : ∀ target, o ≠ .symlink target) :
    d.stat p = .ok o := by
  rw [Disk.stat, hT.find h fun _ ↦ hlast]
  rfl

end Tree

/-! ## Listings -/

theorem mem_childNames : n ∈ d.childNames p ↔ ∃ o, d.obj (p ++ [n]) = some o := by
  rw [childNames, List.mem_filterMap]
  constructor
  · rintro ⟨k, hk, hn⟩
    split at hn
    · next h =>
      obtain ⟨hnil, rfl⟩ := h
      rw [List.dropLast_append_getLast? n hn]
      exact exists_obj_of_mem_keys hk
    · cases hn
  · rintro ⟨o, ho⟩
    exact ⟨p ++ [n], mem_keys_of_obj (by simp) ho, by simp⟩

theorem length_le_depth (h : d.obj p = some o) : p.length ≤ d.depth := by
  by_cases hp : p = []
  · rw [hp]
    exact Nat.zero_le _
  · exact List.le_max?_getD_of_mem (List.mem_map_of_mem (mem_keys_of_obj hp h))

/-! ## Time passes -/

section Time

variable {t : Nat} {names : List Name}

/-- The disk at another time. -/
def atTime (d : Disk) (t : Nat) : Disk := { d with time := t }

@[simp] theorem obj_atTime : (d.atTime t).obj = d.obj := rfl

@[simp] theorem inode_atTime : (d.atTime t).inode = d.inode := rfl

@[simp] theorem scanNames_atTime :
    (d.atTime t).scanNames follow cur names = d.scanNames follow cur names := by
  induction names generalizing cur with
  | nil => rfl
  | cons n names ih => simp only [scanNames, ih, obj_atTime]

@[simp] theorem resolveFrom_atTime {budget : Nat} :
    (d.atTime t).resolveFrom follow budget cur names = d.resolveFrom follow budget cur names := by
  induction budget generalizing cur names with
  | zero =>
    rw [resolveFrom.eq_def, resolveFrom.eq_def]
    simp only [scanNames_atTime]
  | succ budget ih =>
    rw [resolveFrom.eq_def, resolveFrom.eq_def]
    simp only [scanNames_atTime, ih]

@[simp] theorem find_atTime : (d.atTime t).find follow p = d.find follow p := by
  simp only [find, resolve, resolveFrom_atTime, obj_atTime]

/-- Nothing but the time has changed. -/
def Later (d d' : Disk) : Prop := ∃ t, d' = d.atTime t

instance : IsPreorder Disk Later where
  refl d := ⟨d.time, rfl⟩
  trans _ _ _ := by
    rintro ⟨t, rfl⟩ ⟨t', rfl⟩
    exact ⟨t', rfl⟩

theorem Tree.later {d' : Disk} (hT : d.Tree) (h : Later d d') : d'.Tree := by
  obtain ⟨t, rfl⟩ := h
  exact ⟨hT.fileName, hT.parent⟩

end Time

end Disk

end Lilsync.Lib.Posix
