import Lilsync.Lib.Posix.Names

/-!
# The content at a path

What is found by reading a real path, and how linking, creating and clearing
change it.
-/

namespace Lilsync.Lib.Posix

namespace Disk

variable {d : Disk} {p q r : Path} {i : Nat} {content : List UInt8}

/-- The content of the file at a real path. -/
def contentAt (d : Disk) (p : Path) : Option (List UInt8) :=
  match d.obj p with
  | some (.file i) => some (d.inode i).content
  | _ => none

theorem Names.contentAt_eq (h : d.Names i p) : d.contentAt p = some (d.inode i).content := by
  rw [contentAt, h]

theorem contentAt_eq_some :
    d.contentAt p = some content ↔ ∃ i, d.Names i p ∧ (d.inode i).content = content := by
  constructor
  · intro h
    rw [contentAt] at h
    split at h
    · next i hi => exact ⟨i, hi, Option.some.inj h⟩
    · cases h
  · rintro ⟨i, hi, rfl⟩
    exact hi.contentAt_eq

/-- A path that stands for the same object on two disks with the same files. -/
theorem contentAt_congr {d' : Disk} (hobj : d'.obj p = d.obj p)
    (hinode : ∀ i, d.Names i p → d'.inode i = d.inode i) : d'.contentAt p = d.contentAt p := by
  rw [contentAt, contentAt, hobj]
  split
  · next i hi => rw [hinode i hi]
  · rfl

/-- A link has the content of what is linked. -/
theorem contentAt_link (hp : p ≠ []) (hq : d.Names i q) (r : Path) :
    (d.put p (.file i)).contentAt r = if p = r then d.contentAt q else d.contentAt r := by
  by_cases hr : p = r
  · subst hr
    have hnew : (d.put p (.file i)).Names i p := (obj_put d hp _ p).trans (if_pos rfl)
    rw [if_pos rfl, hq.contentAt_eq, hnew.contentAt_eq]
    rfl
  · rw [if_neg hr]
    exact contentAt_congr ((obj_put d hp _ r).trans (if_neg hr)) fun _ _ ↦ rfl

/-- A file with a new number changes the content at its own path only. -/
theorem contentAt_create (hp : p ≠ []) (hi : ∀ q, ¬ d.Names i q) (inode : Inode) (r : Path) :
    ({ d.put p (.file i) with inodes := d.inodes.insert i inode } : Disk).contentAt r =
      if p = r then some inode.content else d.contentAt r := by
  have hinode (j : Nat) : ({ d.put p (.file i) with inodes := d.inodes.insert i inode } :
      Disk).inode j = if i = j then inode else d.inode j := by
    rw [Disk.inode, OrdMap.getElem?_insert_eq]
    split <;> rfl
  by_cases hr : p = r
  · subst hr
    have hnew : ({ d.put p (.file i) with inodes := d.inodes.insert i inode } : Disk).Names i p :=
      (obj_put d hp _ p).trans (if_pos rfl)
    rw [if_pos rfl, hnew.contentAt_eq, hinode, if_pos rfl]
  · rw [if_neg hr]
    refine contentAt_congr ((obj_put d hp _ r).trans (if_neg hr)) fun j hj ↦ ?_
    rw [hinode, if_neg]
    rintro rfl
    exact hi r hj

theorem contentAt_clear (hr : r ≠ []) :
    (d.clear p).contentAt r = if p <+: r then none else d.contentAt r := by
  by_cases h : p <+: r
  · rw [if_pos h, contentAt, obj_clear d hr, if_pos h]
  · rw [if_neg h]
    exact contentAt_congr ((obj_clear d hr).trans (if_neg h)) fun _ _ ↦ rfl

end Disk

end Lilsync.Lib.Posix
