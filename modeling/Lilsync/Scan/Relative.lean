import Lilsync.Lib.Posix.Tree
import Lilsync.Scan

/-!
# Relative paths

What a scan calls an object is the text of its names below the folder, with
slashes between them.  Names hold no slash, so the texts below which such a text
lies are those of the directories on the way to the object.
-/

namespace Lilsync

open Lilsync.Lib Lilsync.Lib.Posix Lilsync.Lib.SlashPath

/-- The relative path of what has these names below the folder. -/
def relOf (names : PathBuf) : Str := [slash].intercalate (names.map Utf8.lossy)

/-- All names are file names. -/
abbrev FileNames (names : PathBuf) : Prop := ∀ n ∈ names, FileName n

variable {names a b : PathBuf} {n : Str}

theorem relativePath_append (root names : PathBuf) :
    relativePath root (root ++ names) = .ok (relOf names) := by
  have hprefix : root.isPrefixOf (root ++ names) :=
    List.isPrefixOf_iff_prefix.mpr (List.prefix_append _ _)
  rw [relativePath, PathBuf.stripPrefix, if_pos hprefix, List.drop_left]
  rfl

theorem relOf_nil : relOf [] = [] := rfl

theorem relOf_singleton (n : Str) : relOf [n] = Utf8.lossy n := by
  simp [relOf]

theorem relOf_cons (n : Str) (h : names ≠ []) :
    relOf (n :: names) = Utf8.lossy n ++ slash :: relOf names := by
  obtain ⟨n', names, rfl⟩ := List.exists_cons_of_ne_nil h
  simp [relOf, List.intercalate_cons_cons]

theorem relOf_concat (n : Str) (h : names ≠ []) :
    relOf (names ++ [n]) = relOf names ++ slash :: Utf8.lossy n := by
  induction names with
  | nil => exact absurd rfl h
  | cons m names ih =>
    cases names with
    | nil => rw [List.singleton_append, relOf_cons m (by simp), relOf_singleton, relOf_singleton]
    | cons m' names =>
      rw [List.cons_append, relOf_cons m (by simp), ih (by simp), relOf_cons m (by simp),
        List.append_assoc, List.cons_append]

theorem slash_notMem_lossy (h : FileName n) : slash ∉ Utf8.lossy n :=
  Utf8.notMem_lossy (by decide) h.notMem

theorem relOf_ne_nil (h : FileNames names) (hne : names ≠ []) : relOf names ≠ [] := by
  obtain ⟨n, rest, rfl⟩ := List.exists_cons_of_ne_nil hne
  have hn : Utf8.lossy n ≠ [] := Utf8.lossy_ne_nil (h n List.mem_cons_self).ne_nil
  cases rest with
  | nil => rwa [relOf_singleton]
  | cons n' rest =>
    rw [relOf_cons n (by simp)]
    exact fun hnil ↦ hn (List.append_eq_nil_iff.mp hnil).1

/-- A relative path lies below those of the directories on the way, and below
nothing else. -/
theorem below_relOf_iff (h : FileNames names) {k : Str} : Below slash k (relOf names) ↔
    ∃ c, c <+: names ∧ c ≠ names ∧ c ≠ [] ∧ relOf c = k := by
  induction names using List.reverseRecOn with
  | nil =>
    constructor
    · exact fun hb ↦ absurd rfl hb.ne_nil
    · rintro ⟨c, hc, hne, -⟩
      exact absurd (List.prefix_nil.mp hc) hne
  | append_singleton names n ih =>
    have hn : slash ∉ Utf8.lossy n := slash_notMem_lossy (h n (by simp))
    have hnames : FileNames names := fun x hx ↦ h x (List.mem_append_left _ hx)
    by_cases hnil : names = []
    · have hrel : relOf (names ++ [n]) = Utf8.lossy n := by
        rw [hnil]
        exact relOf_singleton n
      rw [hrel]
      constructor
      · exact fun hb ↦ absurd (mem_of_below hb) hn
      · rintro ⟨c, hc, hne, hne', -⟩
        have hc := (List.prefix_concat_iff.mp hc).resolve_left hne
        rw [hnil] at hc
        exact absurd (List.prefix_nil.mp hc) hne'
    · rw [relOf_concat n hnil, below_iff, parent_append hn, ih hnames]
      constructor
      · rintro ⟨-, rfl | ⟨c, hc, hne, hne', rfl⟩⟩
        · exact ⟨names, List.prefix_append _ _, by simp, hnil, rfl⟩
        · exact ⟨c, hc.trans (List.prefix_append _ _), fun heq ↦ by
            have hlen := hc.length_le
            simp [heq] at hlen, hne', rfl⟩
      · rintro ⟨c, hc, hne, hne', rfl⟩
        refine ⟨by simp, ?_⟩
        have hc := (List.prefix_concat_iff.mp hc).resolve_left hne
        by_cases heq : c = names
        · exact .inl (congrArg relOf heq)
        · exact .inr ⟨c, hc, heq, hne', rfl⟩

/-- The pieces between the slashes are the names, as decoded. -/
theorem splitOn_relOf (h : FileNames names) (hne : names ≠ []) :
    (relOf names).splitOn slash = names.map Utf8.lossy := by
  refine List.splitOn_intercalate slash (fun l hl ↦ ?_) (by simpa using hne)
  obtain ⟨n, hn, rfl⟩ := List.mem_map.mp hl
  exact slash_notMem_lossy (h n hn)

theorem map_lossy_eq_self (h : ∀ n ∈ names, Utf8.valid n) : names.map Utf8.lossy = names := by
  conv_rhs => rw [← List.map_id names]
  exact List.map_congr_left fun n hn ↦ Utf8.lossy_of_valid (h n hn)

/-- Texts of well-formed names determine them. -/
theorem relOf_injective (ha : FileNames a) (hb : FileNames b) (hva : ∀ n ∈ a, Utf8.valid n)
    (hvb : ∀ n ∈ b, Utf8.valid n) (h : relOf a = relOf b) : a = b := by
  by_cases hna : a = []
  · by_contra hne
    exact relOf_ne_nil hb (fun hnb ↦ hne (hna.trans hnb.symm)) (by rw [← h, hna, relOf_nil])
  · have hnb : b ≠ [] := by
      rintro rfl
      exact relOf_ne_nil ha hna (h.trans relOf_nil)
    calc a = a.map Utf8.lossy := (map_lossy_eq_self hva).symm
      _ = (relOf a).splitOn slash := (splitOn_relOf ha hna).symm
      _ = (relOf b).splitOn slash := by rw [h]
      _ = b.map Utf8.lossy := splitOn_relOf hb hnb
      _ = b := map_lossy_eq_self hvb

end Lilsync
