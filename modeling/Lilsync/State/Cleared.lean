import Lilsync.State.Sound
import Lilsync.State.Spared

/-!
# Below a file that replaces a directory

A remote entry that is no directory buries all that is live below its path
(`notLive_recordRemote`).  A file or a link that `apply_paths` finds does so only if the
index has a directory at the path.  Where it has none, which a remote entry below a path
that was never announced is enough for, what is live below the path stays
(`clearedBelow_applyPaths_iff`).
-/

namespace Lilsync

open Std (ExtTreeMap)
open Lilsync.Lib Lilsync.Lib.Proc Lilsync.Lib.Posix Lilsync.Lib.SlashPath

open Replica (NotLive)

/-- Nothing below the path is live. -/
def ClearedBelow (entries : Index) (path : Str) : Prop :=
  ∀ k, Below slash path k → NotLive entries k

/-- Something found at the path or above it leaves no place for what is below. -/
def Clears (entries : Index) (seen : List Observation) (path : Str) : Prop :=
  ∃ i o, seen[i]? = some o ∧ (o.1 = path ∨ Below slash o.1 path) ∧
    Evicts (lastKind (kindAt entries o.1) (seen.take i) o.1) o.2

section Record

variable {entries : Index} {seen : List Observation} {path k : Str} {o : Observation}
  {live : Entry}

theorem kindAt_ne_of_notLive (h : NotLive entries k) {kind : EntryKind}
    (hkind : kind ≠ .tombstone) : kindAt entries k ≠ some kind := by
  intro heq
  obtain ⟨e, he, rfl⟩ := Option.map_eq_some_iff.mp heq
  exact hkind (h e he)

/-- A path where the index has a directory is cleared by a file or a link. -/
theorem clears_of_directory (hdir : kindAt entries path = some .dir)
    (hmem : (path, some live) ∈ seen) (hlive : live.kind ≠ .dir) : Clears entries seen path := by
  have hlast : ∀ (seen : List Observation) kind, kind = some .dir → (path, some live) ∈ seen →
      ∃ i o, seen[i]? = some o ∧ o.1 = path ∧ Evicts (lastKind kind (seen.take i) path) o.2 := by
    intro seen
    induction seen with
    | nil => exact fun _ _ h ↦ absurd h List.not_mem_nil
    | cons o seen ih =>
      rintro _ rfl hmem
      by_cases hevicts : o.1 = path ∧ Evicts (some .dir) o.2
      · exact ⟨0, o, rfl, hevicts⟩
      · -- the observation is of another path, or of the directory
        have hmem : (path, some live) ∈ seen := by
          refine (List.mem_cons.mp hmem).resolve_left ?_
          rintro rfl
          exact hevicts ⟨rfl, rfl, hlive⟩
        have hkind : (if o.1 = path then o.2.map Entry.kind else some .dir) = some .dir := by
          split
          · next heq =>
            cases ho : o.2 with
            | none => exact absurd ⟨heq, ho ▸ trivial⟩ hevicts
            | some found =>
              by_contra hne
              exact hevicts ⟨heq, ho ▸ ⟨rfl, fun h ↦ hne (congrArg some h)⟩⟩
          · rfl
        obtain ⟨i, o', ho', hpath, hevicts'⟩ := ih _ hkind hmem
        exact ⟨i + 1, o', ho', hpath, hevicts'⟩
  obtain ⟨i, o, ho, rfl, hevicts⟩ := hlast seen _ hdir hmem
  exact ⟨i, o, ho, .inl rfl, hevicts⟩

/-- If nothing below the path was found, what is below is displaced exactly if the path is
cleared. -/
theorem displaced_iff_clears (hseen : ∀ o ∈ seen, ¬ Below slash path o.1)
    (hk : Below slash path k) : Displaced entries seen k ↔ Clears entries seen path := by
  constructor
  · rintro ⟨i, o, ho, hbelow, hevicts⟩
    refine ⟨i, o, ho, ?_, hevicts⟩
    rcases hbelow.comparable hk with h | h | h
    · exact .inl h
    · exact .inr h
    · exact absurd h (hseen o (List.mem_of_getElem? ho))
  · rintro ⟨i, o, ho, hpath, hevicts⟩
    refine ⟨i, o, ho, ?_, hevicts⟩
    rcases hpath with rfl | hbelow
    · exact hk
    · exact hbelow.trans hk

/-- Below a path below which nothing was found, recording leaves something live exactly if
it was live and the path was not cleared. -/
theorem notLive_foldl_record_iff (hseen : ∀ o ∈ seen, ¬ Below slash path o.1)
    (hk : Below slash path k) (st : Recorded) :
    NotLive (seen.foldl Observation.record st).1.entries k ↔
      Clears st.1.entries seen path ∨ NotLive st.1.entries k := by
  have hne : ∀ o ∈ seen, o.1 ≠ k := fun o ho heq ↦ hseen o ho (heq ▸ hk)
  obtain ⟨hsame, hburied⟩ := @getElem?_foldl_record_iff st k seen hne
  rw [displaced_iff_clears hseen hk] at hsame hburied
  by_cases hclears : Clears st.1.entries seen path
  · exact iff_of_true (hburied hclears) (.inl hclears)
  · rw [or_iff_right hclears, NotLive, hsame.mpr (.inr hclears)]
    rfl

end Record

section Calls

variable {W : Type} [FileSystem W] [Blake3] {n : Node W} {absPaths : List PathBuf} {path k : Str}

/-- A call that leaves everything to a rescan deletes the path: it was not seen, and the
patterns do not hide it. -/
def Deletes (n : Node W) (absPaths : List PathBuf) (k : Str) : Prop :=
  ∃ v s v', fallbackView n absPaths = some v ∧ exec (survey n.folder.root) v = (.ok s, v') ∧
    s.seen.contains k = false ∧ shouldIgnore k s.ignorePatterns = false

omit [FileSystem W] [Blake3] in
/-- Recording deletions buries what was not seen and is not hidden. -/
theorem notLive_recordDeleted_iff {seen : BTreeSet Str} {ps : List IgnorePattern}
    (st : Recorded) : NotLive (recordDeleted seen ps st).1.entries k ↔
      NotLive st.1.entries k ∨ seen.contains k = false ∧ shouldIgnore k ps = false := by
  by_cases hk : seen.contains k = false ∧ shouldIgnore k ps = false
  · refine iff_of_true (Replica.notLive_foldl_filter_keys ?_ st) (.inr hk)
    rw [hk.1, hk.2]
    rfl
  · rw [or_iff_left hk]
    rcases Replica.foldl_tombstonePath_cases _ st k with heq | ⟨hmem, -⟩
    · rw [NotLive, NotLive, recordDeleted, heq]
    · have hkept := (List.mem_filter.mp hmem).2
      simp only [Bool.not_or, Bool.and_eq_true, Bool.not_eq_true'] at hkept
      exact absurd hkept hk

/-- What is not live after `apply_paths`: what recording left so, and what it deleted. -/
theorem notLive_applyPaths_iff :
    NotLive (exec (applyPaths absPaths) n).2.folder.entries k ↔
      NotLive (((LocalCall.applyPaths absPaths).observed n).foldl Observation.record
        (n.folder.toReplica, [])).1.entries k ∨ Deletes n absPaths k := by
  rw [LocalCall.observed]
  cases hfallback : fallbackView n absPaths with
  | none =>
    have hnot : ¬ Deletes n absPaths k := by
      rintro ⟨v, s, v', hv, -⟩
      rw [hfallback] at hv
      cases hv
    rw [or_iff_left hnot]
    rcases toReplica_applyPaths absPaths n with ⟨v, hv, -⟩ | hreplica
    · rw [hfallback] at hv
      cases hv
    · dsimp only
      rw [← recordAll_eq, ← hreplica]
  | some v =>
    rw [exec_applyPaths_of_fallback hfallback]
    have hspec := exec_rescan (n.withView v)
    rw [Node.root_withView, Node.view_withView] at hspec
    dsimp only
    rw [surveyed]
    rcases hsurvey : exec (survey n.folder.root) v with ⟨err | s, v'⟩
    · rw [hsurvey] at hspec
      have hnot : ¬ Deletes n absPaths k := by
        rintro ⟨w, s, w', hw, hs, -⟩
        obtain rfl := Option.some.inj (hfallback.symm.trans hw)
        rw [hsurvey] at hs
        cases hs
      rw [or_iff_left hnot, hspec]
      rfl
    · rw [hsurvey] at hspec
      obtain ⟨w, files, cache, hexec⟩ := hspec
      rw [hexec, ← recordLive_eq]
      refine (notLive_recordDeleted_iff _).trans (or_congr_right ?_)
      constructor
      · exact fun h ↦ ⟨v, s, v', hfallback, hsurvey, h⟩
      · rintro ⟨w, s', w', hw, hs, h⟩
        obtain rfl := Option.some.inj (hfallback.symm.trans hw)
        obtain ⟨hs, -⟩ := Prod.mk.inj (hsurvey.symm.trans hs)
        obtain rfl := Except.ok.inj hs
        exact h

/-- After `apply_paths` nothing below a path is live exactly if the path was cleared, or
if what was live below it was deleted; this is for a path below which nothing was found,
as below a file or a link. -/
theorem clearedBelow_applyPaths_iff
    (hfound : ∀ o ∈ (LocalCall.applyPaths absPaths).observed n, ¬ Below slash path o.1) :
    ClearedBelow (exec (applyPaths absPaths) n).2.folder.entries path ↔
      Clears n.folder.entries ((LocalCall.applyPaths absPaths).observed n) path ∨
      ∀ k, Below slash path k → NotLive n.folder.entries k ∨ Deletes n absPaths k := by
  have hbelow : ∀ k, Below slash path k →
      (NotLive (exec (applyPaths absPaths) n).2.folder.entries k ↔
        Clears n.folder.entries ((LocalCall.applyPaths absPaths).observed n) path ∨
          (NotLive n.folder.entries k ∨ Deletes n absPaths k)) := by
    intro k hk
    rw [notLive_applyPaths_iff, notLive_foldl_record_iff hfound hk, or_assoc]
  constructor
  · intro hcleared
    by_cases hclears : Clears n.folder.entries ((LocalCall.applyPaths absPaths).observed n) path
    · exact .inl hclears
    · exact .inr fun k hk ↦ ((hbelow k hk).mp (hcleared k hk)).resolve_left hclears
  · rintro (hclears | hrest) k hk
    · exact (hbelow k hk).mpr (.inl hclears)
    · exact (hbelow k hk).mpr (.inr (hrest k hk))

end Calls

/-! ## A path that was never announced -/

/-- A peer's directory. -/
def remoteDir (path : Str) (lamport : Nat) : Entry :=
  ⟨path, .dir, none, none, 0, none, ⟨lamport, lit "B"⟩⟩

/-- A folder with nothing in it. -/
def emptyDisk : Disk := Disk.of [([lit "s"], .dir 0o755)] []

/-- The folder when there is a link `d`. -/
def linkDisk : Disk :=
  Disk.of [([lit "s"], .dir 0o755), ([lit "s", lit ".lil"], .dir 0o755),
    ([lit "s", lit "d"], .symlink (lit "t"))] []

/-- What is found at the link. -/
def linkEntry : Entry := liveEntry (lit "d") .symlink none (some (lit "t")) 0 none

/-- A node that has learnt of some directories of a peer; then a link replaces `d`. -/
def linkedNode [Blake3] (remote : List Entry) : Node Disk :=
  let node := (exec (FolderState.new [lit "s"] (lit "A"))
    (Node.blank [lit "s"] (lit "A") emptyDisk)).2
  let node := Call.run node (.applyRemoteEntries (remote.map fun e ↦ (e, none)))
  { node with world := linkDisk }

theorem reachable_linkedNode (remote : List Entry) : letI : Blake3 := Blake3.reference
    folderStates.Reachable (linkedNode remote) := by
  let _ : Blake3 := Blake3.reference
  have hnew : (exec (FolderState.new [lit "s"] (lit "A"))
      (Node.blank [lit "s"] (lit "A") emptyDisk)).1 = .ok () := by decide +kernel
  exact .step (.step (reachable_folderStateNew hnew) (.inl ⟨_, rfl⟩)) (.inr ⟨linkDisk, _, rfl⟩)

/-- The peer's directory `d` and one in it: the link replaces both. -/
theorem clearedBelow_announced : letI : Blake3 := Blake3.reference
    ClearedBelow (exec (applyPaths [[lit "s", lit "d"]]) (linkedNode
      [remoteDir (lit "d") 1, remoteDir (lit "d/x") 2])).2.folder.entries (lit "d") := by
  let _ : Blake3 := Blake3.reference
  have hobserved : ((LocalCall.applyPaths [[lit "s", lit "d"]]).observed
      (linkedNode [remoteDir (lit "d") 1, remoteDir (lit "d/x") 2])) =
      [(lit "d", some linkEntry)] := by decide +kernel
  refine (clearedBelow_applyPaths_iff ?_).mpr (.inl ?_)
  · rw [hobserved]
    exact List.forall_mem_singleton.mpr Below.irrefl
  · rw [hobserved]
    refine clears_of_directory ?_ (List.mem_singleton_self _) (by decide)
    decide +kernel

/-- Only a directory in `d` was announced: it stays live below the link. -/
theorem not_forall_clearedBelow : ¬ ∀ (_ : Blake3) (n : Node Disk), folderStates.Reachable n →
    ∀ absPaths changes n', exec (applyPaths absPaths) n = (.ok changes, n') →
      ∀ path live, (path, some live) ∈ (LocalCall.applyPaths absPaths).observed n →
        live.kind = .file ∨ live.kind = .symlink → ClearedBelow n'.folder.entries path := by
  intro h
  let blake3 : Blake3 := Blake3.reference
  let node : Node Disk := linkedNode [remoteDir (lit "d/x") 1]
  have hobserved : ((LocalCall.applyPaths [[lit "s", lit "d"]]).observed node) =
      [(lit "d", some linkEntry)] := by decide +kernel
  have hok : ∃ changes, (exec (applyPaths [[lit "s", lit "d"]]) node).1 = .ok changes := by
    have hisOk : (exec (applyPaths [[lit "s", lit "d"]]) node).1.isOk = true := by decide +kernel
    cases hrun : (exec (applyPaths [[lit "s", lit "d"]]) node).1 with
    | ok changes => exact ⟨changes, rfl⟩
    | error err =>
      rw [hrun] at hisOk
      cases hisOk
  obtain ⟨changes, hok⟩ := hok
  have hmem : (lit "d", some linkEntry) ∈
      (LocalCall.applyPaths [[lit "s", lit "d"]]).observed node := by
    rw [hobserved]
    exact List.mem_singleton_self _
  have hcleared := h blake3 node (reachable_linkedNode _) [[lit "s", lit "d"]] changes
    (exec (applyPaths [[lit "s", lit "d"]]) node).2 (by rw [← hok]) (lit "d") linkEntry hmem
    (.inr rfl)
  have hlive : kindAt (exec (applyPaths [[lit "s", lit "d"]]) node).2.folder.entries (lit "d/x") =
      some .dir := by decide +kernel
  have hbelow : Below slash (lit "d") (lit "d/x") := by decide
  have hdead : kindAt (exec (applyPaths [[lit "s", lit "d"]]) node).2.folder.entries (lit "d/x") ≠
      some .dir := kindAt_ne_of_notLive (hcleared _ hbelow) (by decide)
  exact hdead hlive

end Lilsync
