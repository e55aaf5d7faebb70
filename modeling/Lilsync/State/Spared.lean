import Lilsync.State.Events

/-!
# Ignored paths in the index

A call looks at nothing the patterns hide, so it records nothing at an ignored path.
But when a path is found to be gone, or to be no directory any more, all that is live
below it is buried, and the patterns are not asked.  So an ignored path keeps its entry
exactly if nothing above it is found like this (`untouched_iff`).
-/

namespace Lilsync

open Std (ExtTreeMap ExtTreeSet)
open Lilsync.Lib Lilsync.Lib.Proc Lilsync.Lib.Posix Lilsync.Lib.SlashPath

open Replica (NotLive)

/-! ## Observations -/

/-- What was found at a path: an entry, or nothing. -/
abbrev Observation := Str × Option Entry

/-- Record what was found. -/
def Observation.record (st : Recorded) (o : Observation) : Recorded :=
  match o.2 with
  | some live => Replica.updateEntry o.1 live st
  | none => Replica.tombstoneDescendants o.1 st

/-- The kind of the entry at a path. -/
def kindAt (entries : Index) (k : Str) : Option EntryKind := entries[k]?.map Entry.kind

/-- The kind of what was found last at a path, if anything was. -/
def lastKind (kind : Option EntryKind) (seen : List Observation) (k : Str) : Option EntryKind :=
  seen.foldl (fun kind o ↦ if o.1 = k then o.2.map Entry.kind else kind) kind

/-- Nothing can be below the path any more: there is nothing at it, or no directory where
there was one. -/
def Evicts (kind : Option EntryKind) : Option Entry → Prop
  | none => True
  | some live => kind = some .dir ∧ live.kind ≠ .dir

/-- Something found above the path leaves no place for it. -/
def Displaced (entries : Index) (seen : List Observation) (k : Str) : Prop :=
  ∃ i o, seen[i]? = some o ∧ Below slash o.1 k ∧
    Evicts (lastKind (kindAt entries o.1) (seen.take i) o.1) o.2

section Observe

variable {st : Recorded} {o : Observation} {k : Str} {seen : List Observation}

theorem lastKind_cons (kind : Option EntryKind) (o : Observation) (seen : List Observation)
    (k : Str) : lastKind kind (o :: seen) k =
      lastKind (if o.1 = k then o.2.map Entry.kind else kind) seen k := rfl

/-- The first observation displaces a path, or one of the others does. -/
theorem displaced_cons_iff {entries entries' : Index}
    (h : ∀ q, Below slash q k →
      kindAt entries' q = if o.1 = q then o.2.map Entry.kind else kindAt entries q) :
    Displaced entries (o :: seen) k ↔
      Below slash o.1 k ∧ Evicts (kindAt entries o.1) o.2 ∨ Displaced entries' seen k := by
  constructor
  · rintro ⟨i, o', ho', hbelow, hevicts⟩
    cases i with
    | zero =>
      obtain rfl := Option.some.inj ho'
      exact .inl ⟨hbelow, hevicts⟩
    | succ i =>
      rw [List.take_succ_cons, lastKind_cons, ← h o'.1 hbelow] at hevicts
      exact .inr ⟨i, o', ho', hbelow, hevicts⟩
  · rintro (⟨hbelow, hevicts⟩ | ⟨i, o', ho', hbelow, hevicts⟩)
    · exact ⟨0, o, rfl, hbelow, hevicts⟩
    · refine ⟨i + 1, o', ho', hbelow, ?_⟩
      rw [List.take_succ_cons, lastKind_cons, ← h o'.1 hbelow]
      exact hevicts

/-- What is live below an evicted path is buried. -/
theorem Observation.notLive_record (hbelow : Below slash o.1 k)
    (h : Evicts (kindAt st.1.entries o.1) o.2) : NotLive (o.record st).1.entries k := by
  obtain ⟨path, _ | live⟩ := o
  · exact Replica.notLive_tombstoneDescendants (.inr hbelow) st
  · obtain ⟨hdir, hlive⟩ := h
    obtain ⟨old, hold, hkind⟩ := Option.map_eq_some_iff.mp hdir
    have hsame : sameObservedState old live = false := by
      rw [Bool.eq_false_iff, ne_eq, sameObservedState_iff]
      rintro heq
      exact hlive (congrArg Entry.kind heq ▸ hkind)
    change NotLive (Replica.updateEntry path live st).1.entries k
    rw [Replica.updateEntry]
    simp only [hold, Option.any_some, hsame, Bool.false_eq_true, ↓reduceIte, hkind,
      beq_self_eq_true, Bool.true_and, bne_iff_ne, ne_eq, hlive, not_false_eq_true]
    exact Replica.notLive_tombstoneChildDescendants hbelow _

/-- Any other path is left alone, unless it is below an evicted one. -/
theorem Observation.getElem?_record (hne : o.1 ≠ k)
    (h : Below slash o.1 k → ¬ Evicts (kindAt st.1.entries o.1) o.2) :
    (o.record st).1.entries[k]? = st.1.entries[k]? := by
  obtain ⟨path, _ | live⟩ := o
  · rcases Replica.foldl_tombstonePath_cases _ st k with heq | ⟨hmem, -⟩
    · exact heq
    · rcases of_decide_eq_true (List.mem_filter.mp hmem).2 with rfl | hbelow
      · exact absurd rfl hne
      · exact absurd trivial (h hbelow)
  · rcases Replica.updateEntry_cases st hne.symm with heq | ⟨hbelow, -⟩
    · exact heq
    · exact Replica.getElem?_updateEntry_of_not_replaces (h hbelow) hne

/-- Nothing happens where nothing is live. -/
theorem Observation.getElem?_record_of_notLive (hne : o.1 ≠ k) (h : NotLive st.1.entries k) :
    (o.record st).1.entries[k]? = st.1.entries[k]? := by
  have hnot : ¬ Replica.Entombs st.1 (o.record st).1 k := by
    rintro ⟨old, version, hold, hlive, -⟩
    exact hlive (h old hold)
  obtain ⟨path, _ | live⟩ := o
  · exact (Replica.foldl_tombstonePath_cases _ st k).resolve_right fun h ↦ hnot h.2
  · exact (Replica.updateEntry_cases st hne.symm).resolve_right fun h ↦ hnot h.2

/-- An observed path has the kind of what was found. -/
theorem Observation.kindAt_record_self {live : Entry} (hlive : o.2 = some live) :
    kindAt (o.record st).1.entries o.1 = some live.kind := by
  obtain ⟨path, _⟩ := o
  obtain rfl := hlive
  obtain ⟨e, he, hsame⟩ := Replica.getElem?_updateEntry_self path live st
  have hkind := congrArg Entry.kind (sameObservedState_iff.mp hsame)
  dsimp only at hkind
  rw [kindAt, record, he, Option.map_some, hkind]

/-- Above a path that is not displaced every kind is that of the last look. -/
theorem Observation.kindAt_record {q : Str} (hq : Below slash q k)
    (h : ¬ (Below slash o.1 k ∧ Evicts (kindAt st.1.entries o.1) o.2)) :
    kindAt (o.record st).1.entries q =
      if o.1 = q then o.2.map Entry.kind else kindAt st.1.entries q := by
  by_cases heq : o.1 = q
  · subst heq
    rw [if_pos rfl]
    cases hlive : o.2 with
    | none => exact absurd ⟨hq, hlive ▸ trivial⟩ h
    | some live => exact kindAt_record_self hlive
  · rw [if_neg heq, kindAt, kindAt]
    exact congrArg _ (getElem?_record heq fun hbelow hevicts ↦ h ⟨hbelow.trans hq, hevicts⟩)

/-- Recording leaves alone what is not live and not found. -/
theorem getElem?_foldl_record_of_notLive (hseen : ∀ o ∈ seen, o.1 ≠ k)
    (h : NotLive st.1.entries k) :
    (seen.foldl Observation.record st).1.entries[k]? = st.1.entries[k]? := by
  induction seen generalizing st with
  | nil => rfl
  | cons o seen ih =>
    have hrecord := Observation.getElem?_record_of_notLive (hseen o List.mem_cons_self) h
    rw [List.foldl_cons, ih (fun o ho ↦ hseen o (List.mem_cons_of_mem _ ho)), hrecord]
    intro e he
    exact h e (hrecord ▸ he)

/-- A path at which nothing was found keeps its entry exactly if that is not live or if it
was not displaced; a live entry that was displaced is buried. -/
theorem getElem?_foldl_record_iff (hseen : ∀ o ∈ seen, o.1 ≠ k) :
    ((seen.foldl Observation.record st).1.entries[k]? = st.1.entries[k]? ↔
      NotLive st.1.entries k ∨ ¬ Displaced st.1.entries seen k) ∧
    (Displaced st.1.entries seen k → NotLive (seen.foldl Observation.record st).1.entries k) := by
  induction seen generalizing st with
  | nil =>
    have hnone : ¬ Displaced st.1.entries [] k := fun ⟨i, o, h, _⟩ ↦ by cases h
    simp [hnone]
  | cons o seen ih =>
    have hne := hseen o List.mem_cons_self
    have hrest : ∀ o ∈ seen, o.1 ≠ k := fun o ho ↦ hseen o (List.mem_cons_of_mem _ ho)
    rw [List.foldl_cons]
    by_cases hevicted : Below slash o.1 k ∧ Evicts (kindAt st.1.entries o.1) o.2
    · -- the path is buried here, and nothing brings it back
      have hburied := Observation.notLive_record hevicted.1 hevicted.2
      have hlast := getElem?_foldl_record_of_notLive hrest hburied
      have hdisplaced : Displaced st.1.entries (o :: seen) k := ⟨0, o, rfl, hevicted⟩
      have hend : NotLive (seen.foldl Observation.record (o.record st)).1.entries k := by
        rw [NotLive, hlast]
        exact hburied
      refine ⟨⟨fun heq ↦ .inl ?_, ?_⟩, fun _ ↦ hend⟩
      · rw [NotLive, ← heq]
        exact hend
      · rintro (hnot | hnot)
        · rw [hlast, Observation.getElem?_record_of_notLive hne hnot]
        · exact absurd hdisplaced hnot
    · have hkind : ∀ q, Below slash q k → kindAt (o.record st).1.entries q =
          if o.1 = q then o.2.map Entry.kind else kindAt st.1.entries q :=
        fun q hq ↦ Observation.kindAt_record hq hevicted
      have hsame := Observation.getElem?_record hne fun hb he ↦ hevicted ⟨hb, he⟩
      rw [displaced_cons_iff hkind, or_iff_right hevicted, ← hsame]
      have hnot : NotLive (o.record st).1.entries k ↔ NotLive st.1.entries k := by
        rw [NotLive, NotLive, hsame]
      rw [← hnot]
      exact ih hrest

end Observe

/-! ## What a look finds is not ignored -/

section Unignored

variable {W : Type} {ps : List IgnorePattern}

/-- What a look found, in the order it is recorded. -/
def Sight.observations (relative : Str) : Sight → List Observation
  | .nothing => []
  | .gone => [(relative, none)]
  | .leaf live => [(relative, some live)]
  | .dir live (.ok below) =>
    (relative, some live) :: below.toList.map fun (path, entry) ↦ (path, some entry)
  | .dir live (.error _) => [(relative, some live)]

/-- What a survey found, in the order it is recorded. -/
def Survey.observations (s : Survey) : List Observation :=
  s.entries.toList.map fun (path, entry) ↦ (path, some entry)

theorem Sight.record_eq (relative : Str) (s : Sight) (st : Recorded) :
    s.record relative st = (s.observations relative).foldl Observation.record st := by
  match s with
  | .nothing | .gone | .leaf _ | .dir _ (.error _) => rfl
  | .dir live (.ok below) =>
    rw [observations, List.foldl_cons, List.foldl_map]
    rfl

theorem recordAll_eq (seen : List (Str × Sight)) (st : Recorded) : recordAll seen st =
    (seen.flatMap fun rs ↦ rs.2.observations rs.1).foldl Observation.record st := by
  rw [recordAll, List.foldl_flatMap]
  simp only [Sight.record_eq]

theorem recordLive_eq (s : Survey) (st : Recorded) :
    recordLive s.entries st = s.observations.foldl Observation.record st := by
  rw [Survey.observations, List.foldl_map]
  rfl

/-- A scan with these patterns finds nothing they ignore. -/
def FindsUnignored (ps : List IgnorePattern) (st st' : ScanState W) : Prop :=
  (∀ k ∈ st.entries, shouldIgnore k ps = false) → ∀ k ∈ st'.entries, shouldIgnore k ps = false

instance : IsPreorder (ScanState W) (FindsUnignored ps) where
  refl _ := id
  trans _ _ _ h h' := h' ∘ h

theorem keptByLooks_findsUnignored :
    KeptByLooks (W := W) Whatever (FindsUnignored ps) where
  fs _ := keeps_zoom fun _ _ ↦ id
  modifyCache _ := keeps_modify fun _ ↦ id
  insertUnstable _ := keeps_modify fun _ ↦ id

variable [FileSystem W] [Blake3]

theorem findsUnignored_scanDir (root : PathBuf) (depth : Nat) (dir : PathBuf) :
    Keeps (FindsUnignored (W := W) ps) (scanDir root ps depth dir) := by
  induction depth generalizing dir with
  | zero => exact keeps_throw _
  | succ depth ih =>
    refine (keeps_zoom fun _ _ ↦ id).bind fun children ↦ Keeps.forM fun path _ ↦ ?_
    refine keptByLooks_findsUnignored.scanChild looks_whatever (fun entry _ hentry ↦ ?_)
      fun _ _ _ ↦ ih path
    refine keeps_modify fun st h k hk ↦ ?_
    rcases ExtTreeMap.mem_insert.mp hk with heq | hk
    · rw [← Std.LawfulEqCmp.eq_of_compare heq]
      exact hentry
    · exact h k hk

omit [FileSystem W] [Blake3] in
/-- What a scan returns is not ignored. -/
theorem yields_scan_unignored {α : Type} {m : ScanM W α} (h : Keeps (FindsUnignored ps) m) :
    Yields (fun r ↦ ∀ k ∈ r.2.entries, shouldIgnore k ps = false) (LookM.scan m) :=
  yields_scan h fun _ _ _ hst ↦ hst fun k hk ↦ by simp at hk

omit [FileSystem W] [Blake3] in
theorem mem_of_mem_map_toList {found : BTreeMap Str Entry} {o : Observation}
    (h : o ∈ found.toList.map fun (path, entry) ↦ (path, some entry)) : o.1 ∈ found := by
  obtain ⟨⟨k, e⟩, hke, rfl⟩ := List.mem_map.mp h
  have hk := ExtTreeMap.mem_toList_iff_getElem?_eq_some.mp hke
  exact ExtTreeMap.mem_iff_isSome_getElem?.mpr (by rw [hk]; rfl)

/-- What a look finds is not ignored. -/
theorem yields_look_unignored (root absPath : PathBuf) (relative : Str) :
    Yields (fun s : Sight ↦ ∀ o ∈ s.observations relative, shouldIgnore o.1 ps = false)
      (look (W := W) root absPath relative ps) := by
  rw [look]
  split
  · exact yields_pure (List.forall_mem_nil _)
  · next hi =>
    have hself {o : Option Entry} :
        ∀ o' ∈ [((relative, o) : Observation)], shouldIgnore o'.1 ps = false :=
      List.forall_mem_singleton.mpr (Bool.eq_false_of_not_eq_true hi)
    refine yields_bind fun r ↦ ?_
    split
    · next metadata =>
      split
      · refine yields_bind fun target ↦ ?_
        split
        · exact yields_pure hself
        · exact yields_pure (List.forall_mem_nil _)
      · split
        · refine yields_bind fun r ↦ ?_
          split
          · exact yields_pure hself
          · exact yields_pure (List.forall_mem_nil _)
        · split
          · refine yields_bind fun v ↦ ?_
            refine Yields.bind (P := fun r ↦ ∀ live, r = .ok live →
              ∀ k ∈ live.2.entries, shouldIgnore k ps = false) ?_ fun r hr ↦ yields_pure ?_
            · intro v r hr live hlive
              obtain rfl := Except.ok.inj hr
              exact yields_scan_unignored (findsUnignored_scanDir _ _ _) v live hlive
            · cases r with
              | error e => exact hself
              | ok live =>
                refine List.forall_mem_cons.mpr ⟨Bool.eq_false_of_not_eq_true hi, fun o ho ↦ ?_⟩
                exact hr live rfl o.1 (mem_of_mem_map_toList ho)
          · exact yields_pure (List.forall_mem_nil _)
    · split
      · exact yields_pure hself
      · exact yields_throw _

end Unignored

/-! ## What a call does to an ignored path -/

/-- The local operations. -/
inductive LocalCall where
  | rescan
  | applyPaths (absPaths : List PathBuf)

section Calls

variable {W : Type} [FileSystem W] [Blake3] {n : Node W} {ps : List IgnorePattern} {k : Str}

/-- The node after a local operation. -/
def LocalCall.run (n : Node W) : LocalCall → Node W
  | .rescan => (exec Lilsync.rescan n).2
  | .applyPaths absPaths => (exec (Lilsync.applyPaths absPaths) n).2

/-- A local operation leaves the entry at a path alone. -/
def Untouched (n : Node W) (call : LocalCall) (k : Str) : Prop :=
  (call.run n).folder.entries[k]? = n.folder.entries[k]?

theorem Untouched.kindAt_eq {call : LocalCall} (h : Untouched n call k) :
    kindAt (call.run n).folder.entries k = kindAt n.folder.entries k :=
  congrArg (Option.map Entry.kind) h

/-- What a rescan finds. -/
def surveyed (root : PathBuf) (v : W × ScanCache) : List Observation :=
  match exec (survey root) v with
  | (.ok s, _) => s.observations
  | (.error _, _) => []

/-- What a call finds, in the order it is recorded. -/
def LocalCall.observed (n : Node W) : LocalCall → List Observation
  | .rescan => surveyed n.folder.root n.view
  | .applyPaths absPaths =>
    match fallbackView n absPaths with
    | some v => surveyed n.folder.root v
    | none => (eventSights n absPaths).flatMap fun rs ↦ rs.2.observations rs.1

/-- With an event for the patterns `apply_paths` is a rescan. -/
theorem exec_applyPaths_of_fallback {absPaths : List PathBuf} {v : W × ScanCache}
    (h : fallbackView n absPaths = some v) :
    exec (applyPaths absPaths) n = exec rescan (n.withView v) := by
  rw [fallbackView] at h
  rw [applyPaths, exec_bind, exec_fs]
  rcases hpaths : exec (LookM.fs (normalizeEventPaths absPaths)) n.view with ⟨err | paths, v'⟩
  · rw [hpaths] at h
    cases h
  · rw [hpaths] at h
    dsimp only at h ⊢
    rw [exec_get_bind, Node.root_withView]
    split at h
    · next hcontains =>
      obtain rfl := Option.some.inj h
      rw [if_pos hcontains]
    · cases h

omit [FileSystem W] [Blake3] in
/-- Recording deletions leaves ignored paths alone. -/
theorem getElem?_recordDeleted_of_ignored {seen : BTreeSet Str}
    (h : shouldIgnore k ps = true) (st : Recorded) :
    (recordDeleted seen ps st).1.entries[k]? = st.1.entries[k]? := by
  rcases Replica.foldl_tombstonePath_cases _ st k with heq | ⟨hmem, -⟩
  · exact heq
  · have hk := (List.mem_filter.mp hmem).2
    simp [h] at hk

/-- The patterns a rescan reads. -/
def Reads (ps : List IgnorePattern) (root : PathBuf) (v : W × ScanCache) : Prop :=
  ∀ s v', exec (survey root) v = (.ok s, v') → s.ignorePatterns = ps

/-- At an ignored path a rescan records what it found, and deletes nothing. -/
theorem getElem?_rescan (hps : Reads ps n.folder.root n.view) (hk : shouldIgnore k ps = true) :
    (exec rescan n).2.folder.entries[k]? =
      ((surveyed n.folder.root n.view).foldl Observation.record
        (n.folder.toReplica, [])).1.entries[k]? := by
  have hspec := exec_rescan n
  rw [surveyed]
  match hsurvey : exec (survey n.folder.root) n.view with
  | (.error err, v) =>
    rw [hsurvey] at hspec
    rw [hspec]
    rfl
  | (.ok s, v) =>
    rw [hsurvey] at hspec
    obtain ⟨w, files, cache, hexec⟩ := hspec
    rw [hexec]
    change (recordDeleted s.seen s.ignorePatterns _).1.entries[k]? = _
    rw [hps s v hsurvey, getElem?_recordDeleted_of_ignored hk, recordLive_eq]

end Calls

section Disk

variable [Blake3] {n : Node Disk} {ps : List IgnorePattern} {k : Str} {root : PathBuf}
  {v : Disk × ScanCache} {o : Observation}

omit [Blake3] in
theorem exec_lookPatterns (hps : HasPatterns v.1 root ps) :
    exec (LookM.fs (loadIgnorePatterns root)) v = (.ok ps, v) := by
  rw [LookM.fs, exec_zoom, exec_loadIgnorePatterns, hps]

theorem reads_of_hasPatterns (hps : HasPatterns v.1 root ps) : Reads ps root v := by
  intro s v' h
  rw [survey, exec_bind_ok (exec_lookPatterns hps)] at h
  obtain ⟨live, v₁, -, h⟩ := of_exec_bind h
  obtain ⟨rfl, -⟩ := Prod.mk.inj (Except.ok.inj (congrArg Prod.fst h) ▸ rfl :
    (s, v') = (⟨ps, live.2.entries, live.2.unstable⟩, v'))
  rfl

/-- A survey finds nothing the patterns ignore. -/
theorem unignored_of_mem_surveyed (hps : HasPatterns v.1 root ps) (h : o ∈ surveyed root v) :
    shouldIgnore o.1 ps = false := by
  have hload : exec (ScanM.fs (loadIgnorePatterns root)) (⟨v.1, v.2, ∅, ∅⟩ : ScanState Disk) =
      (.ok ps, ⟨v.1, v.2, ∅, ∅⟩) := by
    rw [ScanM.fs, exec_zoom, exec_loadIgnorePatterns, hps]
  have hfound : ∀ k ∈ (exec (scanDir root ps (FileSystem.depthLimit v.1) root)
      (⟨v.1, v.2, ∅, ∅⟩ : ScanState Disk)).2.entries, shouldIgnore k ps = false :=
    findsUnignored_scanDir root _ root ⟨v.1, v.2, ∅, ∅⟩ fun k hk ↦ by simp at hk
  rw [surveyed, survey, exec_bind_ok (exec_lookPatterns hps), exec_bind, exec_lookScan, scanFolder,
    exec_bind_ok hload, exec_get_bind] at h
  dsimp only at h
  generalize exec (scanDir root ps (FileSystem.depthLimit v.1) root)
    (⟨v.1, v.2, ∅, ∅⟩ : ScanState Disk) = r at h hfound
  obtain ⟨_ | _, st⟩ := r
  · cases h
  · exact hfound o.1 (mem_of_mem_map_toList h)

omit [Blake3] in
theorem fallbackView_eq_view {absPaths : List PathBuf} (h : fallbackView n absPaths = some v) :
    v = n.view := by
  rw [fallbackView, LookM.fs, exec_zoom, Node.view, exec_normalizeEventPaths] at h
  dsimp only at h
  split at h
  · exact (Option.some.inj h).symm
  · cases h

/-- A call finds nothing the patterns ignore. -/
theorem unignored_of_mem_observed (hps : HasPatterns n.world n.folder.root ps) {call : LocalCall}
    (h : o ∈ call.observed n) : shouldIgnore o.1 ps = false := by
  cases call with
  | rescan => exact unignored_of_mem_surveyed hps h
  | applyPaths absPaths =>
    rw [LocalCall.observed] at h
    split at h
    · next v hv =>
      obtain rfl := fallbackView_eq_view hv
      exact unignored_of_mem_surveyed hps h
    · obtain ⟨rs, hrs, ho⟩ := List.mem_flatMap.mp h
      rw [eventSights, LookM.fs, exec_zoom, Node.view, exec_normalizeEventPaths] at hrs
      dsimp only at hrs
      split at hrs
      · cases hrs
      · have hload := exec_lookPatterns (v := (n.world, n.folder.scanCache)) hps
        rw [hload] at hrs
        exact of_mem_sights (P := fun relative s ↦ ∀ o ∈ s.observations relative,
          shouldIgnore o.1 ps = false) (yields_look_unignored _) hrs o ho

/-- What a call does at an ignored path is to record what it found. -/
theorem getElem?_run (hps : HasPatterns n.world n.folder.root ps) (hk : shouldIgnore k ps = true)
    (call : LocalCall) : (call.run n).folder.entries[k]? =
      ((call.observed n).foldl Observation.record (n.folder.toReplica, [])).1.entries[k]? := by
  cases call with
  | rescan => exact getElem?_rescan (reads_of_hasPatterns hps) hk
  | applyPaths absPaths =>
    rw [LocalCall.observed]
    cases hfallback : fallbackView n absPaths with
    | some v =>
      obtain rfl := fallbackView_eq_view hfallback
      rw [LocalCall.run, exec_applyPaths_of_fallback hfallback]
      exact getElem?_rescan (reads_of_hasPatterns hps) hk
    | none =>
      rcases toReplica_applyPaths absPaths n with ⟨v, hv, -⟩ | hreplica
      · rw [hfallback] at hv
        cases hv
      · dsimp only
        rw [← recordAll_eq, ← hreplica]
        rfl

/-- An ignored path keeps its entry in a local operation exactly if that is not live, or if
nothing found above the path leaves no place for it. -/
theorem untouched_iff (hps : HasPatterns n.world n.folder.root ps)
    (hk : shouldIgnore k ps = true) (call : LocalCall) : Untouched n call k ↔
      NotLive n.folder.entries k ∨ ¬ Displaced n.folder.entries (call.observed n) k := by
  have hne : ∀ o ∈ call.observed n, o.1 ≠ k := by
    rintro o ho rfl
    rw [unignored_of_mem_observed hps ho] at hk
    cases hk
  rw [Untouched, getElem?_run hps hk]
  exact (getElem?_foldl_record_iff hne).1

end Disk

/-! ## A directory that is gone -/

/-- A folder with the pattern `secret` and these directories. -/
def secretDisk (dirs : List Str) : Disk :=
  Disk.of (([lit "r"], .dir 0o755) :: ([lit "r", lit ".nolil"], .file 0) ::
      dirs.map fun name ↦ ([lit "r", name], .dir 0o755))
    [(0, ⟨lit "secret\n", 0o644, 0⟩)]

/-- A node that has synced the directory `d` with the file `secret` in it, before the file
was ignored. -/
def secretNode [Blake3] (dirs : List Str) : Node Disk :=
  let node := Node.blank [lit "r"] (lit "A") (secretDisk dirs)
  { node with folder := { node.folder with
      lamport := 2
      entries := indexOf [⟨lit "d", .dir, none, none, 0, some 0o755, ⟨1, lit "A"⟩⟩,
        ⟨lit "d/secret", .file, some zeroHash, none, 3, some 0o644, ⟨2, lit "A"⟩⟩] } }

/-- The pattern `secret`. -/
def secretPattern : IgnorePattern := ⟨lit "secret", false, false, false, false⟩

/-- An event for another directory. -/
theorem untouched_otherDir : letI : Blake3 := Blake3.reference
    Untouched (secretNode [lit "d", lit "e"]) (.applyPaths [[lit "r", lit "e"]])
      (lit "d/secret") := by
  let _ : Blake3 := Blake3.reference
  have hps : HasPatterns (secretNode [lit "d", lit "e"]).world
      (secretNode [lit "d", lit "e"]).folder.root [secretPattern] := by decide +kernel
  have hk : shouldIgnore (lit "d/secret") [secretPattern] = true := by decide +kernel
  have hobserved : ((LocalCall.applyPaths [[lit "r", lit "e"]]).observed
      (secretNode [lit "d", lit "e"])).map Prod.fst = [lit "e"] := by decide +kernel
  refine (untouched_iff hps hk _).mpr (.inr ?_)
  rintro ⟨i, o, ho, hbelow, -⟩
  have hmem : o.1 ∈ ((LocalCall.applyPaths [[lit "r", lit "e"]]).observed
      (secretNode [lit "d", lit "e"])).map Prod.fst :=
    List.mem_map_of_mem (List.mem_of_getElem? ho)
  rw [hobserved, List.mem_singleton] at hmem
  rw [hmem] at hbelow
  exact absurd hbelow (by decide)

/-- An event for the directory when it is gone: the file in it is buried, although it is
ignored. -/
theorem not_forall_untouched : ¬ ∀ (_ : Blake3) (n : Node Disk) (ps : List IgnorePattern),
    HasPatterns n.world n.folder.root ps → ∀ (call : LocalCall) (k : Str),
      shouldIgnore k ps = true → Untouched n call k := by
  intro h
  let blake3 : Blake3 := Blake3.reference
  have hsame := (h blake3 (secretNode []) [secretPattern] (by decide +kernel)
    (.applyPaths [[lit "r", lit "d"]]) (lit "d/secret") (by decide +kernel)).kindAt_eq
  have hburied : kindAt ((LocalCall.applyPaths [[lit "r", lit "d"]]).run
      (secretNode [])).folder.entries (lit "d/secret") = some .tombstone := by decide +kernel
  have hold : kindAt (secretNode []).folder.entries (lit "d/secret") = some .file := by
    decide +kernel
  rw [hburied, hold] at hsame
  cases hsame

end Lilsync
