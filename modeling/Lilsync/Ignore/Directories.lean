import Lilsync.Ignore.Glob

/-!
# Patterns for directories

A pattern with a trailing slash is for directories: it should say something about a file
only through a directory the file is in.  The matcher does not know what is at a path,
so it tries such a pattern on the file itself too.  Its verdict for a file is the one it
should be unless such a stray match comes last and changes it (`shouldIgnore_iff_iff`).
-/

namespace Lilsync

open Lilsync.Lib Lilsync.Lib.SlashPath

/-! ## What the verdict should be -/

/-- The pattern matches the path as a whole, a suffix of it that starts at a component,
or a component. -/
def MatchesAt (pattern : IgnorePattern) (path : Str) : Prop :=
  if pattern.anchored then path ∈ patternLanguage pattern.pattern
  else if pattern.hasSlash then
    ∃ suffix, (suffix = path ∨ ∃ before, path = before ++ slash :: suffix) ∧
      suffix ∈ patternLanguage pattern.pattern
  else ∃ name ∈ path.splitOn slash, name ∈ patternLanguage pattern.pattern

/-- The pattern matches the file: if it is for directories, through one the file is in. -/
def MatchesFile (path : Str) (pattern : IgnorePattern) : Prop :=
  if pattern.directoryOnly then ∃ dir, Below slash dir path ∧ MatchesAt pattern dir
  else MatchesAt pattern path

/-- The last pattern with the property is not negated. -/
def LastIgnores (M : IgnorePattern → Prop) (patterns : List IgnorePattern) : Prop :=
  ∃ before pattern after, patterns = before ++ pattern :: after ∧ M pattern ∧
    (∀ q ∈ after, ¬ M q) ∧ pattern.negated = false

/-- The patterns ignore the file. -/
def IgnoresFile (patterns : List IgnorePattern) (path : Str) : Prop :=
  LastIgnores (MatchesFile path) patterns

/-- A pattern for directories that matches the file, but no directory it is in. -/
def Stray (path : Str) (pattern : IgnorePattern) : Prop :=
  pattern.directoryOnly = true ∧ MatchesAt pattern path ∧
    ∀ dir, Below slash dir path → ¬ MatchesAt pattern dir

/-- If the last pattern that matches is a stray one, it changes nothing. -/
def StraysChangeNothing (patterns : List IgnorePattern) (path : Str) : Prop :=
  ∀ before pattern after, patterns = before ++ pattern :: after → Stray path pattern →
    (∀ q ∈ after, ¬ MatchesFile path q ∧ ¬ Stray path q) →
    (pattern.negated = false ↔ IgnoresFile before path)

/-! ## The last match -/

section Last

variable {M : IgnorePattern → Prop} {patterns : List IgnorePattern} {q : IgnorePattern}

theorem not_lastIgnores_nil : ¬ LastIgnores M [] := by
  rintro ⟨before, pattern, after, h, -⟩
  exact absurd h (by simp)

/-- A place in a list with one more element is the last one, or a place in the list. -/
theorem concat_eq_append_cons {α : Type} {l before after : List α} {a b : α}
    (h : l ++ [a] = before ++ b :: after) :
    (after = [] ∧ l = before ∧ a = b) ∨
      ∃ after', after = after' ++ [a] ∧ l = before ++ b :: after' := by
  rcases List.eq_nil_or_concat' after with rfl | ⟨after, last, rfl⟩
  · obtain ⟨rfl, hlast⟩ := List.append_inj' h rfl
    exact .inl ⟨rfl, rfl, List.singleton_inj.mp hlast⟩
  · rw [← List.cons_append, ← List.append_assoc] at h
    obtain ⟨rfl, hlast⟩ := List.append_inj' h rfl
    rw [List.singleton_inj.mp hlast]
    exact .inr ⟨after, rfl, rfl⟩

/-- One more pattern: it decides if it matches. -/
theorem lastIgnores_concat : LastIgnores M (patterns ++ [q]) ↔
    M q ∧ q.negated = false ∨ ¬ M q ∧ LastIgnores M patterns := by
  constructor
  · rintro ⟨before, pattern, after, h, hmatch, hafter, hneg⟩
    rcases concat_eq_append_cons h with ⟨-, -, rfl⟩ | ⟨after, rfl, rfl⟩
    · exact .inl ⟨hmatch, hneg⟩
    · obtain ⟨hafter, hq⟩ := List.forall_mem_append.mp hafter
      have hq : ¬ M q := hq q (List.mem_singleton_self q)
      exact .inr ⟨hq, before, pattern, after, rfl, hmatch, hafter, hneg⟩
  · rintro (⟨hmatch, hneg⟩ | ⟨hq, before, pattern, after, rfl, hmatch, hafter, hneg⟩)
    · exact ⟨patterns, q, [], rfl, hmatch, by simp, hneg⟩
    · refine ⟨before, pattern, after ++ [q], by simp, hmatch, ?_, hneg⟩
      exact List.forall_mem_append.mpr ⟨hafter, List.forall_mem_singleton.mpr hq⟩

/-- The loop of `matches_ignore_patterns`. -/
theorem foldl_verdict_iff (m : IgnorePattern → Bool) (patterns : List IgnorePattern) :
    patterns.foldl (fun ignored pattern ↦ if m pattern then !pattern.negated else ignored) false =
      true ↔ LastIgnores (fun pattern ↦ m pattern = true) patterns := by
  induction patterns using List.reverseRecOn with
  | nil => simp [not_lastIgnores_nil]
  | append_singleton patterns q ih =>
    rw [List.foldl_append, List.foldl_cons, List.foldl_nil, lastIgnores_concat, ← ih]
    by_cases hq : m q = true
    · simp [hq]
    · simp [hq]

/-- Two readings of the patterns, one with additional matches, have the same verdict
exactly if no additional match that comes last changes it. -/
theorem lastIgnores_or_iff {S : IgnorePattern → Prop} (hS : ∀ q, S q → ¬ M q) :
    (LastIgnores (fun q ↦ M q ∨ S q) patterns ↔ LastIgnores M patterns) ↔
      ∀ before pattern after, patterns = before ++ pattern :: after → S pattern →
        (∀ q ∈ after, ¬ M q ∧ ¬ S q) → (pattern.negated = false ↔ LastIgnores M before) := by
  induction patterns using List.reverseRecOn with
  | nil => simp [not_lastIgnores_nil]
  | append_singleton patterns q ih =>
    rw [lastIgnores_concat, lastIgnores_concat]
    by_cases hM : M q
    · -- the last pattern matches in both readings
      have hS : ¬ S q := fun h ↦ hS q h hM
      simp only [hM, hS, or_false, true_and, not_true_eq_false, false_and, true_iff]
      intro before pattern after h hpattern hafter
      rcases concat_eq_append_cons h with ⟨-, -, rfl⟩ | ⟨after, rfl, -⟩
      · exact absurd hpattern hS
      · exact absurd hM (hafter q (by simp)).1
    · by_cases hS : S q
      · -- the last pattern is an additional match
        simp only [hM, hS, or_true, true_and, not_true_eq_false, false_and, or_false, false_or,
          not_false_eq_true]
        constructor
        · intro hiff before pattern after h hpattern hafter
          rcases concat_eq_append_cons h with ⟨-, rfl, rfl⟩ | ⟨after, rfl, -⟩
          · exact hiff
          · exact absurd hS (hafter q (by simp)).2
        · exact fun h ↦ h patterns q [] rfl hS (by simp)
      · -- the last pattern does not match
        simp only [hM, hS, or_self, false_and, not_false_eq_true, true_and, false_or]
        rw [ih]
        constructor
        · intro hall before pattern after h hpattern hafter
          rcases concat_eq_append_cons h with ⟨-, -, rfl⟩ | ⟨after, rfl, rfl⟩
          · exact absurd hpattern hS
          · exact hall before pattern after rfl hpattern (List.forall_mem_append.mp hafter).1
        · rintro hall before pattern after rfl hpattern hafter
          refine hall before pattern (after ++ [q]) (by simp) hpattern ?_
          exact List.forall_mem_append.mpr ⟨hafter, List.forall_mem_singleton.mpr ⟨hM, hS⟩⟩

end Last

/-! ## What the matcher tries -/

section Candidates

variable {path dir suffix : Str} {pattern : IgnorePattern} {patterns : List IgnorePattern}

theorem intercalate_append {l m : List Str} (hl : l ≠ []) (hm : m ≠ []) :
    [slash].intercalate (l ++ m) = [slash].intercalate l ++ slash :: [slash].intercalate m := by
  induction l with
  | nil => exact absurd rfl hl
  | cons a l ih =>
    cases l with
    | nil => rw [List.singleton_append, List.intercalate_cons_of_ne_nil hm,
        List.intercalate_singleton, List.append_assoc, List.singleton_append]
    | cons b l =>
      have hne : b :: l ≠ [] := List.cons_ne_nil b l
      have happ : b :: l ++ m ≠ [] := List.append_ne_nil_of_left_ne_nil hne m
      rw [List.cons_append, List.intercalate_cons_of_ne_nil happ, ih hne,
        List.intercalate_cons_of_ne_nil hne]
      simp only [List.append_assoc]

/-- The candidates for a directory are the path and what it is below of. -/
theorem mem_directoryCandidates_iff :
    dir ∈ directoryCandidates path ↔ dir = path ∨ Below slash dir path := by
  rw [directoryCandidates, List.mem_map]
  constructor
  · rintro ⟨i, hi, rfl⟩
    have hi := List.mem_range.mp hi
    have hpath : [slash].intercalate (path.splitOn slash) = path := List.intercalate_splitOn slash
    by_cases hlast : (path.splitOn slash).length ≤ i + 1
    · exact .inl (by rw [List.take_of_length_le hlast, hpath])
    · rw [← List.take_append_drop (i + 1) (path.splitOn slash), intercalate_append (by simp)
        (by simpa using hlast)] at hpath
      have hbelow : Below slash ([slash].intercalate ((path.splitOn slash).take (i + 1))) _ :=
        below_append _ ([slash].intercalate ((path.splitOn slash).drop (i + 1)))
      rw [hpath] at hbelow
      exact .inr hbelow
  · have hpos (p : Str) : (p.splitOn slash).length - 1 + 1 = (p.splitOn slash).length :=
      Nat.sub_add_cancel (List.length_pos_iff.mpr (List.splitOn_ne_nil _ _))
    rintro (rfl | ⟨rest, rfl⟩)
    · refine ⟨(dir.splitOn slash).length - 1, List.mem_range.mpr ?_, ?_⟩
      · have := hpos dir
        omega
      · rw [hpos, List.take_length, List.intercalate_splitOn]
    · rw [List.append_assoc, List.singleton_append, List.splitOn_append_cons_self]
      refine ⟨(dir.splitOn slash).length - 1, List.mem_range.mpr ?_, ?_⟩
      · have := hpos dir
        rw [List.length_append]
        omega
      · rw [hpos, List.take_left, List.intercalate_splitOn]

theorem mem_suffixesAfterSlash_iff : suffix ∈ pathSuffixCandidates.suffixesAfterSlash path ↔
    ∃ before, path = before ++ slash :: suffix := by
  induction path with
  | nil => simp [pathSuffixCandidates.suffixesAfterSlash]
  | cons c path ih =>
    have hcons : (∃ before, c :: path = before ++ slash :: suffix) ↔
        c = slash ∧ suffix = path ∨ ∃ before, path = before ++ slash :: suffix := by
      constructor
      · rintro ⟨_ | ⟨b, before⟩, h⟩
        · exact .inl ⟨(List.cons.inj h).1, (List.cons.inj h).2.symm⟩
        · exact .inr ⟨before, (List.cons.inj h).2⟩
      · rintro (⟨rfl, rfl⟩ | ⟨before, rfl⟩)
        · exact ⟨[], rfl⟩
        · exact ⟨c :: before, rfl⟩
    rw [pathSuffixCandidates.suffixesAfterSlash, hcons, ← ih]
    by_cases hc : c = slash
    · simp [hc]
    · simp [hc]

theorem mem_pathSuffixCandidates_iff : suffix ∈ pathSuffixCandidates path ↔
    suffix = path ∨ ∃ before, path = before ++ slash :: suffix := by
  cases path with
  | nil => simp [pathSuffixCandidates]
  | cons c path => rw [pathSuffixCandidates, List.mem_cons, mem_suffixesAfterSlash_iff]

/-! ## The verdict -/

/-- A pattern matches a file if it should, or if it is a stray one. -/
theorem matchesIgnorePattern_iff (pattern : IgnorePattern) (path : Str) :
    matchesIgnorePattern pattern path = true ↔ MatchesFile path pattern ∨ Stray path pattern := by
  have hat (target : Str) :
      (if pattern.anchored then globMatch pattern.pattern target
        else if pattern.hasSlash then
          (pathSuffixCandidates target).any (globMatch pattern.pattern ·)
        else (target.splitOn slash).any (globMatch pattern.pattern ·)) = true ↔
        MatchesAt pattern target := by
    rw [MatchesAt]
    split
    · exact globMatch_iff _ _
    · split
      · simp only [List.any_eq_true, mem_pathSuffixCandidates_iff, globMatch_iff]
      · simp only [List.any_eq_true, globMatch_iff]
  rw [matchesIgnorePattern, List.any_eq_true]
  simp only [hat]
  rw [MatchesFile, Stray]
  by_cases hdir : pattern.directoryOnly = true
  · simp only [hdir, ↓reduceIte, mem_directoryCandidates_iff, true_and]
    constructor
    · rintro ⟨dir, rfl | hbelow, hmatch⟩
      · by_cases h : ∃ above, Below slash above dir ∧ MatchesAt pattern above
        · exact .inl h
        · exact .inr ⟨hmatch, fun above hbelow habove ↦ h ⟨above, hbelow, habove⟩⟩
      · exact .inl ⟨dir, hbelow, hmatch⟩
    · rintro (⟨dir, hbelow, hmatch⟩ | ⟨hmatch, -⟩)
      · exact ⟨dir, .inr hbelow, hmatch⟩
      · exact ⟨path, .inl rfl, hmatch⟩
  · simp [hdir]

theorem not_matchesFile_of_stray (h : Stray path pattern) : ¬ MatchesFile path pattern := by
  rw [MatchesFile, if_pos h.1]
  rintro ⟨dir, hbelow, hmatch⟩
  exact h.2.2 dir hbelow hmatch

/-- The patterns give the verdict they should unless a stray one changes it. -/
theorem matchesIgnorePatterns_iff_ignoresFile_iff (patterns : List IgnorePattern) (path : Str) :
    (matchesIgnorePatterns patterns path = true ↔ IgnoresFile patterns path) ↔
      StraysChangeNothing patterns path := by
  rw [matchesIgnorePatterns, foldl_verdict_iff]
  simp only [matchesIgnorePattern_iff]
  exact lastIgnores_or_iff fun q ↦ not_matchesFile_of_stray

/-- For a file whose path the built-in exclusions do not decide: `should_ignore` gives
the verdict the patterns should give exactly if no stray match that comes last changes
it; `.nolil` is never ignored. -/
theorem shouldIgnore_iff_iff (patterns : List IgnorePattern) (path : Str)
    (hpath : ∀ c ∈ components path, shouldIgnoreComponent (Utf8.lossy c.asOsStr) = false) :
    (shouldIgnore path patterns = true ↔ IgnoresFile patterns path) ↔
      (path = ignoreFileName → ¬ IgnoresFile patterns path) ∧
      (path ≠ ignoreFileName → StraysChangeNothing patterns path) := by
  rw [shouldIgnore]
  by_cases hself : path = ignoreFileName
  · simp [hself]
  · have hbuiltin : ((components path).any fun c ↦
        shouldIgnoreComponent (Utf8.lossy c.asOsStr)) = false := by
      rw [List.any_eq_false]
      exact fun c hc ↦ by simp [hpath c hc]
    rw [if_neg hself, hbuiltin, Bool.false_or, matchesIgnorePatterns_iff_ignoresFile_iff]
    simp [hself]

/-- The line `build/` decides `build/keep.txt` through the directory. -/
theorem shouldIgnore_iff_keepTxt :
    let patterns := parseIgnorePatterns (lit "build/\n")
    shouldIgnore (lit "build/keep.txt") patterns = true ↔
      IgnoresFile patterns (lit "build/keep.txt") := by
  intro patterns
  have hpatterns : patterns = [⟨lit "build", false, true, false, false⟩] := by decide +kernel
  refine (shouldIgnore_iff_iff patterns (lit "build/keep.txt") (by decide +kernel)).mpr
    ⟨fun h ↦ absurd h (by decide), fun _ before pattern after h hstray _ ↦ ?_⟩
  have hmem : pattern ∈ patterns := by simp [h]
  rw [hpatterns, List.mem_singleton] at hmem
  subst hmem
  have hmatch : MatchesAt ⟨lit "build", false, true, false, false⟩ (lit "build") :=
    ⟨lit "build", by decide, (globMatch_iff _ _).mp (by decide +kernel)⟩
  exact absurd hmatch (hstray.2.2 (lit "build") (by decide))

/-- A file with the name of a directory that is ignored is ignored too. -/
theorem not_forall_shouldIgnore_iff : ¬ ∀ (contents path : Str),
    (∀ c ∈ components path, shouldIgnoreComponent (Utf8.lossy c.asOsStr) = false) →
    (shouldIgnore path (parseIgnorePatterns contents) = true ↔
      IgnoresFile (parseIgnorePatterns contents) path) := by
  intro h
  have hpatterns : parseIgnorePatterns (lit "build/\n") =
      [⟨lit "build", false, true, false, false⟩] := by decide +kernel
  have hbuild := h (lit "build/\n") (lit "build") (by decide +kernel)
  rw [hpatterns] at hbuild
  obtain ⟨before, pattern, after, hmem, hmatch, -⟩ := hbuild.mp (by decide +kernel)
  have hpattern : pattern ∈ [(⟨lit "build", false, true, false, false⟩ : IgnorePattern)] := by
    simp [hmem]
  rw [List.mem_singleton.mp hpattern, MatchesFile, if_pos rfl] at hmatch
  obtain ⟨dir, hbelow, -⟩ := hmatch
  exact absurd (mem_of_below hbelow) (by decide)

end Candidates

end Lilsync
