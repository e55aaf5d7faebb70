import Lilsync.State
import Lilsync.Replica.Stamp
import Lilsync.Scan.Looks

/-!
# Looking and recording

`apply_one_path` looks at the disk and records what it sees.  What it sees never
depends on the index, and recording never touches the disk, so a call splits
into the two (`exec_applyOnePath`), and so does the loop over a list of paths
(`exec_foldlM_applyPath`).  A sight is *settled* when the index says the same
already; recording a settled sight changes nothing, recording any other one
issues a version.
-/

namespace Lilsync

open Std (ExtTreeMap ExtTreeSet)
open Lilsync.Lib

/-- What a look at a path shows. -/
inductive Sight where
  /-- Nothing to record: the path is ignored, unsupported or still changing. -/
  | nothing
  /-- There is nothing at the path. -/
  | gone
  /-- A file or a link. -/
  | leaf (live : Entry)
  /-- A directory, and what the scan below it found. -/
  | dir (live : Entry) (below : IoResult (BTreeMap Str Entry))

/-! ## Looking -/

/-- Programs that look at the disk: they see the world and the scan cache. -/
abbrev LookM (W : Type) := Proc IoError (W × ScanCache)

namespace LookM

variable {W α : Type}

def fs (m : Fs W α) : LookM W α := Proc.zoom Prod.fst (fun v w ↦ (w, v.2)) m

def scan (m : ScanM W α) : LookM W (α × ScanState W) :=
  Proc.ofExec fun v ↦
    let r := Proc.exec m ⟨v.1, v.2, ∅, ∅⟩
    (r.1.map fun a ↦ (a, r.2), (r.2.world, r.2.cache))

end LookM

/-- What a look can see of a node. -/
def Node.view {W : Type} (n : Node W) : W × ScanCache := (n.world, n.folder.scanCache)

/-- The node after a look. -/
def Node.withView {W : Type} (n : Node W) (v : W × ScanCache) : Node W :=
  { n with world := v.1, folder := { n.folder with scanCache := v.2 } }

/-- The node with a different index. -/
def Node.withReplica {W : Type} (n : Node W) (r : Replica) : Node W :=
  { n with folder := { n.folder with toReplica := r } }

section View

variable {W : Type} (n : Node W) (v v' : W × ScanCache) (r : Replica)

@[simp] theorem Node.view_withView : (n.withView v).view = v := rfl

@[simp] theorem Node.withView_withView : (n.withView v).withView v' = n.withView v' := rfl

@[simp] theorem Node.withView_view : n.withView n.view = n := rfl

@[simp] theorem Node.view_withReplica : (n.withReplica r).view = n.view := rfl

@[simp] theorem Node.world_withView : (n.withView v).world = v.1 := rfl

@[simp] theorem Node.world_withReplica : (n.withReplica r).world = n.world := rfl

@[simp] theorem Node.root_withView : (n.withView v).folder.root = n.folder.root := rfl

@[simp] theorem Node.root_withReplica : (n.withReplica r).folder.root = n.folder.root := rfl

@[simp] theorem Node.toReplica_withView :
    (n.withView v).folder.toReplica = n.folder.toReplica := rfl

@[simp] theorem Node.toReplica_withReplica : (n.withReplica r).folder.toReplica = r := rfl

end View

section Look

variable {W : Type} [FileSystem W] [Blake3]

open FileSystem

/-- The part of `apply_one_path` that looks. -/
def look (root absPath : PathBuf) (relative : Str) (ignorePatterns : List IgnorePattern) :
    LookM W Sight := do
  if shouldIgnore relative ignorePatterns then pure .nothing
  else match ← Proc.attempt (LookM.fs (symlinkMetadata absPath)) with
    | .ok metadata =>
      if metadata.isSymlink then
        match ← LookM.fs (readSupportedSymlink absPath) with
        | some target => pure (.leaf (liveEntry relative .symlink none (some target) 0 none))
        | none => pure .nothing
      else if metadata.isFile then
        match (← LookM.scan (observeFileCached absPath relative metadata true)).1 with
        | some observed =>
          pure (.leaf (liveEntry relative .file (some observed.contentHash) none observed.size
            observed.mode))
        | none => pure .nothing
      else if metadata.isDir then
        let depth := depthLimit (← get).1
        let below ← Proc.attempt (LookM.scan (scanDir root ignorePatterns depth absPath))
        pure (.dir (liveEntry relative .dir none none 0 (mode metadata))
          (below.map fun live ↦ live.2.entries))
      else pure .nothing
    | .error err => if err.kind = .notFound then pure .gone else throw err

/-- What is seen at a list of paths, until the first error. -/
def sights (root : PathBuf) (ignorePatterns : List IgnorePattern) :
    List PathBuf → W × ScanCache → List (Str × Sight)
  | [], _ => []
  | absPath :: paths, v =>
    match relativePath root absPath with
    | .error _ => sights root ignorePatterns paths v
    | .ok relative =>
      if relative = [] then sights root ignorePatterns paths v
      else match Proc.exec (look root absPath relative ignorePatterns) v with
        | (.error _, _) => []
        | (.ok (.dir live (.error err)), _) => [(relative, .dir live (.error err))]
        | (.ok sight, v') => (relative, sight) :: sights root ignorePatterns paths v'

end Look

/-! ## Recording -/

namespace Sight

/-- The part of `apply_one_path` that records. -/
def record (relative : Str) : Sight → Recorded → Recorded
  | .nothing, st => st
  | .gone, st => Replica.tombstoneDescendants relative st
  | .leaf live, st => Replica.updateEntry relative live st
  | .dir live (.ok below), st => recordLive below (Replica.updateEntry relative live st)
  | .dir live (.error _), st => Replica.updateEntry relative live st

/-- The error a look met after it had something to record. -/
def result : Sight → IoResult Unit
  | .dir _ (.error err) => .error err
  | _ => .ok ()

open Replica (Matches NotLive Stamps Adds)

/-- The index says already what is seen at the path. -/
def Settled (entries : Index) (relative : Str) : Sight → Prop
  | .nothing => True
  | .gone => ∀ k, k = relative ∨ SlashPath.Below slash relative k → NotLive entries k
  | .leaf live => Matches entries relative live
  | .dir live below => Matches entries relative live ∧
      ∀ b, below = .ok b → ∀ (k : Str) e, b[k]? = some e → Matches entries k e

/-- The entries seen are at the paths they are seen at. -/
def Placed (relative : Str) : Sight → Prop
  | .nothing => True
  | .gone => True
  | .leaf live => live.path = relative
  | .dir live below => live.path = relative ∧
      ∀ b, below = .ok b → ∀ (k : Str) (e : Entry), b[k]? = some e → e.path = k

theorem stamps_recordLive {live : BTreeMap Str Entry}
    (h : ∀ (k : Str) (e : Entry), live[k]? = some e → e.path = k) (st : Recorded) :
    Stamps st (recordLive live st) :=
  Replica.stamps_foldl (fun st _ hkv ↦ Replica.stamps_updateEntry
    (h _ _ (ExtTreeMap.mem_toList_iff_getElem?_eq_some.mp hkv)) st) st

theorem recordLive_eq_self_or_adds {live : BTreeMap Str Entry}
    (h : ∀ (k : Str) (e : Entry), live[k]? = some e → e.path = k) (st : Recorded) :
    ((∀ (k : Str) e, live[k]? = some e → Matches st.1.entries k e) → recordLive live st = st) ∧
      ((∃ (k : Str) (e : Entry), live[k]? = some e ∧ ¬ Matches st.1.entries k e) →
        Adds st (recordLive live st)) := by
  have key := Replica.foldl_eq_self_or_adds (l := live.toList)
    (f := fun st kv ↦ Replica.updateEntry kv.1 kv.2 st)
    (P := fun st kv ↦ Matches st.1.entries kv.1 kv.2) st
    (fun st kv hkv ↦ Replica.stamps_updateEntry
      (h _ _ (ExtTreeMap.mem_toList_iff_getElem?_eq_some.mp hkv)) st)
    (fun _ _ _ hm ↦ Replica.updateEntry_eq_self hm)
    fun _ _ _ hm ↦ Replica.adds_updateEntry hm
  refine ⟨fun hm ↦ key.1 fun kv hkv ↦ hm _ _ (ExtTreeMap.mem_toList_iff_getElem?_eq_some.mp hkv),
    fun ⟨k, e, hk, hm⟩ ↦ key.2 ⟨(k, e), ExtTreeMap.mem_toList_iff_getElem?_eq_some.mpr hk, hm⟩⟩

variable {relative : Str} {s : Sight}

theorem stamps_record (h : s.Placed relative) (st : Recorded) : Stamps st (s.record relative st) := by
  match s, h with
  | .nothing, _ => exact .refl
  | .gone, _ => exact Replica.stamps_tombstoneDescendants relative st
  | .leaf live, h => exact Replica.stamps_updateEntry h st
  | .dir live (.ok below), h =>
    exact (Replica.stamps_updateEntry h.1 st).trans (stamps_recordLive (h.2 below rfl) _)
  | .dir live (.error _), h => exact Replica.stamps_updateEntry h.1 st

/-- Recording a settled sight changes nothing. -/
theorem record_eq_self {st : Recorded} (hp : s.Placed relative)
    (h : s.Settled st.1.entries relative) : s.record relative st = st := by
  match s, hp, h with
  | .nothing, _, _ => rfl
  | .gone, _, h =>
    refine (Replica.foldl_tombstonePath _ st).1 fun p hp ↦ h p ?_
    exact of_decide_eq_true (List.mem_filter.mp hp).2
  | .leaf live, _, h => exact Replica.updateEntry_eq_self h
  | .dir live (.ok below), hp, h =>
    rw [record, Replica.updateEntry_eq_self h.1]
    exact (recordLive_eq_self_or_adds (hp.2 below rfl) st).1 (h.2 below rfl)
  | .dir live (.error _), _, h => exact Replica.updateEntry_eq_self h.1

/-- Recording a sight that is not settled notes a change. -/
theorem adds_record {st : Recorded} (hp : s.Placed relative)
    (h : ¬ s.Settled st.1.entries relative) : Adds st (s.record relative st) := by
  match s, hp, h with
  | .nothing, _, h => exact absurd trivial h
  | .gone, _, h =>
    obtain ⟨k, hk, hlive⟩ : ∃ k, (k = relative ∨ SlashPath.Below slash relative k) ∧
        ¬ NotLive st.1.entries k := by
      by_contra hn
      exact h fun k hk ↦ by_contra fun hl ↦ hn ⟨k, hk, hl⟩
    refine (Replica.foldl_tombstonePath _ st).2 ⟨k, List.mem_filter.mpr ⟨?_, by simpa using hk⟩, hlive⟩
    by_contra hn
    rw [ExtTreeMap.mem_keys] at hn
    exact hlive fun e he ↦ by rw [ExtTreeMap.getElem?_eq_none hn] at he; cases he
  | .leaf live, _, h => exact Replica.adds_updateEntry h
  | .dir live (.ok below), hp, h =>
    by_cases hm : Matches st.1.entries relative live
    · rw [record, Replica.updateEntry_eq_self hm]
      refine (recordLive_eq_self_or_adds (hp.2 below rfl) st).2 ?_
      by_contra hn
      refine h ⟨hm, fun b hb k e he ↦ ?_⟩
      obtain rfl := Except.ok.inj hb
      by_contra hmk
      exact hn ⟨k, e, he, hmk⟩
    · exact (Replica.adds_updateEntry hm).trans_stamps (stamps_recordLive (hp.2 below rfl) _)
  | .dir live (.error err), _, h =>
    refine Replica.adds_updateEntry fun hm ↦ h ⟨hm, fun b hb ↦ ?_⟩
    cases hb

end Sight

/-! ## A call looks and records -/

section Exec

variable {W : Type}

open FileSystem Proc

theorem exec_fs {α : Type} (m : Fs W α) (n : Node W) : exec (NodeM.fs m) n =
    ((exec (LookM.fs m) n.view).1, n.withView (exec (LookM.fs m) n.view).2) := rfl

theorem exec_fs_world {α : Type} (m : Fs W α) (n : Node W) : exec (NodeM.fs m) n =
    ((exec m n.world).1, { n with world := (exec m n.world).2 }) := rfl

theorem exec_scan {α : Type} (m : ScanM W α) (n : Node W) : exec (NodeM.scan m) n =
    ((exec (LookM.scan m) n.view).1, n.withView (exec (LookM.scan m) n.view).2) := rfl

theorem exec_record (f : Recorded → Recorded) (changes : List Change) (n : Node W) :
    exec (NodeM.record f changes) n =
      (.ok (f (n.folder.toReplica, changes)).2,
        n.withReplica (f (n.folder.toReplica, changes)).1) := rfl

variable [FileSystem W] [Blake3]

/-- `apply_one_path` looks, then records what it saw, then fails with what the
look failed with. -/
theorem exec_applyOnePath (absPath : PathBuf) (relative : Str)
    (ignorePatterns : List IgnorePattern) (changes : List Change) (n : Node W) :
    exec (applyOnePath absPath relative ignorePatterns changes) n =
      match exec (look n.folder.root absPath relative ignorePatterns) n.view with
      | (.error e, v) => (.error e, n.withView v)
      | (.ok s, v) =>
        let st := s.record relative (n.folder.toReplica, changes)
        (s.result.map fun _ ↦ st.2, (n.withReplica st.1).withView v) := by
  rw [applyOnePath, look]
  by_cases hi : shouldIgnore relative ignorePatterns
  · simp only [hi, ↓reduceIte]
    rfl
  · simp only [hi, Bool.false_eq_true, ↓reduceIte, exec_attempt_bind, exec_fs]
    cases hm : (exec (LookM.fs (symlinkMetadata absPath)) n.view).1 with
    | error err =>
      dsimp only
      split
      · rfl
      · rfl
    | ok metadata =>
      dsimp only
      generalize (exec (LookM.fs (symlinkMetadata absPath)) n.view).2 = v
      by_cases hs : metadata.isSymlink
      · simp only [hs, ↓reduceIte, exec_bind, exec_fs, Node.view_withView, Node.withView_withView]
        generalize exec (LookM.fs (readSupportedSymlink absPath)) v = r
        obtain ⟨_ | _ | target, v'⟩ := r <;> rfl
      · by_cases hf : metadata.isFile
        · simp only [hs, hf, Bool.false_eq_true, ↓reduceIte, exec_bind, exec_scan,
            Node.view_withView, Node.withView_withView]
          generalize exec (LookM.scan (observeFileCached absPath relative metadata true)) v = r
          obtain ⟨_ | ⟨_ | observed, -⟩, v'⟩ := r <;> rfl
        · by_cases hd : metadata.isDir
          · simp only [hs, hf, hd, Bool.false_eq_true, ↓reduceIte, exec_bind, exec_record,
              exec_get, exec_attempt, exec_scan, Node.view_withView, Node.view_withReplica,
              Node.root_withReplica, Node.root_withView,
              Node.world_withReplica, Node.world_withView]
            generalize exec (LookM.scan (scanDir n.folder.root ignorePatterns _ absPath)) v = r
            obtain ⟨_ | live, v'⟩ := r <;> rfl
          · simp only [hs, hf, hd, Bool.false_eq_true, ↓reduceIte]
            rfl

end Exec

/-! ## Scans file entries under their own paths -/

section Keyed

variable {W : Type}

open FileSystem Proc

/-- The entries a scan has found are at their own paths. -/
def ScanState.Keyed (st : ScanState W) : Prop :=
  ∀ (k : Str) (e : Entry), st.entries[k]? = some e → e.path = k

/-- Scanning keeps the entries at their own paths. -/
def KeepsKeyed (st st' : ScanState W) : Prop := st.Keyed → st'.Keyed

instance : IsPreorder (ScanState W) KeepsKeyed where
  refl _ := id
  trans _ _ _ h h' := h' ∘ h

theorem keepsKeyed_fs {α : Type} (m : Fs W α) : Keeps KeepsKeyed (ScanM.fs m) :=
  keeps_zoom fun _ _ ↦ id

theorem keepsKeyed_modifyCache (f : ScanCache → ScanCache) :
    Keeps (KeepsKeyed (W := W)) (ScanM.modifyCache f) := keeps_modify fun _ ↦ id

theorem keepsKeyed_insertUnstable (path : Str) :
    Keeps (KeepsKeyed (W := W)) (ScanM.insertUnstable path) := keeps_modify fun _ ↦ id

theorem keepsKeyed_insertEntry (entry : Entry) :
    Keeps (KeepsKeyed (W := W)) (ScanM.insertEntry entry) := by
  refine keeps_modify fun st h k e he ↦ ?_
  rw [OrdMap.getElem?_insert_eq] at he
  split at he
  · next hk => rw [← hk, Option.some.inj he]
  · exact h k e he

variable [FileSystem W] [Blake3]

omit [FileSystem W] [Blake3] in
theorem keptByLooks_keepsKeyed : KeptByLooks (W := W) Whatever KeepsKeyed where
  fs _ := keepsKeyed_fs _
  modifyCache := keepsKeyed_modifyCache
  insertUnstable := keepsKeyed_insertUnstable

theorem keepsKeyed_scanDir (root : PathBuf) (ignorePatterns : List IgnorePattern) (depth : Nat)
    (dir : PathBuf) : Keeps (KeepsKeyed (W := W)) (scanDir root ignorePatterns depth dir) := by
  induction depth generalizing dir with
  | zero => exact keeps_throw _
  | succ depth ih =>
    refine (keepsKeyed_fs _).bind fun children ↦ Keeps.forM fun path _ ↦ ?_
    exact keptByLooks_keepsKeyed.scanChild looks_whatever (fun entry _ _ ↦ keepsKeyed_insertEntry entry)
      fun _ _ _ ↦ ih path

omit [FileSystem W] [Blake3] in
/-- What every run of a scan does to the empty sets holds of what it returns. -/
theorem yields_scan {α : Type} {m : ScanM W α} {R : ScanState W → ScanState W → Prop}
    {P : ScanState W → Prop} (h : Keeps R m) (hP : ∀ w cache st, R ⟨w, cache, ∅, ∅⟩ st → P st) :
    Yields (fun r ↦ P r.2) (LookM.scan m) := by
  intro v r hr
  change ((exec m ⟨v.1, v.2, ∅, ∅⟩).1.map fun a ↦ (a, (exec m ⟨v.1, v.2, ∅, ∅⟩).2)) = .ok r at hr
  cases hx : (exec m ⟨v.1, v.2, ∅, ∅⟩).1 with
  | error e =>
    rw [hx] at hr
    cases hr
  | ok a =>
    rw [hx] at hr
    obtain rfl := Except.ok.inj hr
    exact hP _ _ _ (h ⟨v.1, v.2, ∅, ∅⟩)

omit [FileSystem W] [Blake3] in
/-- The entries a scan returns are at their own paths. -/
theorem yields_scan_keyed {α : Type} {m : ScanM W α} (h : Keeps KeepsKeyed m) :
    Yields (fun r ↦ r.2.Keyed) (LookM.scan m) :=
  yields_scan h fun _ _ _ hst ↦ hst fun k e he ↦ by simp at he

/-- What a look sees is placed at the path it looked at. -/
theorem yields_look (root absPath : PathBuf) (relative : Str)
    (ignorePatterns : List IgnorePattern) :
    Yields (Sight.Placed relative) (look (W := W) root absPath relative ignorePatterns) := by
  rw [look]
  split
  · exact yields_pure trivial
  · refine yields_bind fun r ↦ ?_
    split
    · next metadata =>
      split
      · refine yields_bind fun target ↦ ?_
        split
        · exact yields_pure rfl
        · exact yields_pure trivial
      · split
        · refine yields_bind fun r ↦ ?_
          split
          · exact yields_pure rfl
          · exact yields_pure trivial
        · split
          · refine yields_bind fun v ↦ ?_
            refine Yields.bind (P := fun r ↦ ∀ live, r = .ok live → live.2.Keyed) ?_
              fun r hr ↦ yields_pure ⟨rfl, fun b hb ↦ ?_⟩
            · intro v r hr live hlive
              obtain rfl := Except.ok.inj hr
              exact yields_scan_keyed (keepsKeyed_scanDir _ _ _ _) v live hlive
            · cases r with
              | error e => cases hb
              | ok live =>
                obtain rfl := Except.ok.inj hb
                exact hr live rfl
          · exact yields_pure trivial
    · split
      · exact yields_pure trivial
      · exact yields_throw _

end Keyed

/-! ## The loop over the event paths -/

section Loop

variable {W : Type}

open FileSystem Proc

open Replica (Stamps Adds)

/-- Record what was seen, in order. -/
def recordAll (seen : List (Str × Sight)) (st : Recorded) : Recorded :=
  seen.foldl (fun st rs ↦ rs.2.record rs.1 st) st

/-- Everything seen is settled. -/
def AllSettled (entries : Index) (seen : List (Str × Sight)) : Prop :=
  ∀ rs ∈ seen, rs.2.Settled entries rs.1

theorem stamps_recordAll {seen : List (Str × Sight)} (h : ∀ rs ∈ seen, rs.2.Placed rs.1)
    (st : Recorded) : Stamps st (recordAll seen st) :=
  Replica.stamps_foldl (fun st rs hrs ↦ Sight.stamps_record (h rs hrs) st) st

theorem recordAll_eq_self_or_adds {seen : List (Str × Sight)}
    (h : ∀ rs ∈ seen, rs.2.Placed rs.1) (st : Recorded) :
    (AllSettled st.1.entries seen → recordAll seen st = st) ∧
      (¬ AllSettled st.1.entries seen → Adds st (recordAll seen st)) := by
  have key := Replica.foldl_eq_self_or_adds (l := seen)
    (P := fun st rs ↦ rs.2.Settled st.1.entries rs.1) st
    (fun st rs hrs ↦ Sight.stamps_record (h rs hrs) st)
    (fun st rs hrs ↦ Sight.record_eq_self (h rs hrs))
    fun st rs hrs ↦ Sight.adds_record (h rs hrs)
  exact ⟨key.1, fun hn ↦ key.2 (by simpa [AllSettled] using hn)⟩

variable [FileSystem W] [Blake3]

/-- What every look yields holds of everything that is seen. -/
theorem of_mem_sights {P : Str → Sight → Prop} {root : PathBuf}
    {ignorePatterns : List IgnorePattern}
    (hP : ∀ absPath relative,
      Yields (P relative) (look (W := W) root absPath relative ignorePatterns))
    {paths : List PathBuf} {v : W × ScanCache} {rs : Str × Sight}
    (h : rs ∈ sights root ignorePatterns paths v) : P rs.1 rs.2 := by
  induction paths generalizing v with
  | nil => cases h
  | cons absPath paths ih =>
    rw [sights] at h
    split at h
    · exact ih h
    · next relative _ =>
      split at h
      · exact ih h
      · have hy := hP absPath relative v
        split at h
        · cases h
        · next heq =>
          obtain rfl := List.mem_singleton.mp h
          exact hy _ (congrArg Prod.fst heq)
        · next heq =>
          rcases List.mem_cons.mp h with rfl | h
          · exact hy _ (congrArg Prod.fst heq)
          · exact ih h

theorem exec_applyPath (ignorePatterns : List IgnorePattern) (changes : List Change)
    (absPath : PathBuf) (n : Node W) :
    exec (applyPath ignorePatterns changes absPath) n =
      match relativePath n.folder.root absPath with
      | .error _ => (.ok changes, n)
      | .ok relative =>
        if relative = [] then (.ok changes, n)
        else exec (applyOnePath absPath relative ignorePatterns changes) n := by
  rw [applyPath, exec_get_bind]
  cases relativePath n.folder.root absPath with
  | error err => rfl
  | ok relative =>
    dsimp only
    split <;> rfl

/-- The loop of `apply_paths` looks and records until the first error. -/
theorem exec_foldlM_applyPath (ignorePatterns : List IgnorePattern) (paths : List PathBuf)
    (changes : List Change) (n : Node W) :
    let st := recordAll (sights n.folder.root ignorePatterns paths n.view)
      (n.folder.toReplica, changes)
    let run := exec (paths.foldlM (applyPath ignorePatterns) changes) n
    (∃ v, run.2 = (n.withReplica st.1).withView v) ∧ ∀ cs, run.1 = .ok cs → cs = st.2 := by
  induction paths generalizing n changes with
  | nil => exact ⟨⟨n.view, rfl⟩, fun cs h ↦ (Except.ok.inj h).symm⟩
  | cons absPath paths ih =>
    rw [List.foldlM_cons, exec_bind, exec_applyPath, sights]
    cases hrel : relativePath n.folder.root absPath with
    | error err => exact ih changes n
    | ok relative =>
      by_cases hnil : relative = []
      · simpa only [hnil, ↓reduceIte] using ih changes n
      · simp only [hnil, ↓reduceIte, exec_applyOnePath]
        match hlook : exec (look n.folder.root absPath relative ignorePatterns) n.view with
        | (.error err, v) => exact ⟨⟨v, rfl⟩, fun cs h ↦ by cases h⟩
        | (.ok (.dir live (.error err)), v) => exact ⟨⟨v, rfl⟩, fun cs h ↦ by cases h⟩
        | (.ok .nothing, v) => exact ih changes (n.withView v)
        | (.ok .gone, v) => exact ih _ ((n.withReplica _).withView v)
        | (.ok (.leaf live), v) => exact ih _ ((n.withReplica _).withView v)
        | (.ok (.dir live (.ok below)), v) => exact ih _ ((n.withReplica _).withView v)

/-! ## Whole calls -/

/-- What `apply_paths` sees before its first error.  It sees nothing when it
cannot read the patterns, or when it leaves everything to a full rescan. -/
def eventSights (n : Node W) (absPaths : List PathBuf) : List (Str × Sight) :=
  match exec (LookM.fs (normalizeEventPaths absPaths)) n.view with
  | (.error _, _) => []
  | (.ok paths, v) =>
    if paths.contains (n.folder.root.join ignoreFileName) then []
    else match exec (LookM.fs (loadIgnorePatterns n.folder.root)) v with
      | (.error _, _) => []
      | (.ok ignorePatterns, v) => sights n.folder.root ignorePatterns paths v

/-- What `rescan` starts from when `apply_paths` leaves everything to it. -/
def fallbackView (n : Node W) (absPaths : List PathBuf) : Option (W × ScanCache) :=
  match exec (LookM.fs (normalizeEventPaths absPaths)) n.view with
  | (.error _, _) => none
  | (.ok paths, v) => if paths.contains (n.folder.root.join ignoreFileName) then some v else none

theorem placed_of_mem_eventSights {n : Node W} {absPaths : List PathBuf} {rs : Str × Sight}
    (h : rs ∈ eventSights n absPaths) : rs.2.Placed rs.1 := by
  rw [eventSights] at h
  split at h
  · cases h
  · split at h
    · cases h
    · split at h
      · cases h
      · exact of_mem_sights (yields_look _ · · _) h

omit [Blake3] in
/-- Saving the scan cache never fails and leaves the index and the trees alone. -/
theorem exec_saveScanCache (n : Node W) : ∃ w files dirty, exec saveScanCache n =
    (.ok (), { n with
      world := w
      store := { n.store with scanCache := files }
      folder := { n.folder with scanCache := { n.folder.scanCache with dirty := dirty } } }) := by
  rw [saveScanCache, exec_get_bind]
  by_cases hd : n.folder.scanCache.dirty
  · simp only [hd, Bool.not_true, Bool.false_eq_true, ↓reduceIte, exec_attempt_bind, exec_fs_world]
    generalize exec (writeAtomic _) n.world = r
    obtain ⟨_ | _, w⟩ := r
    · exact ⟨w, n.store.scanCache, n.folder.scanCache.dirty, rfl⟩
    · exact ⟨w, _, _, rfl⟩
  · simp only [hd, Bool.not_false, ↓reduceIte]
    exact ⟨n.world, n.store.scanCache, n.folder.scanCache.dirty, rfl⟩

/-- What `rescan` sees: the patterns, the entries found, and the files that were
still changing. -/
structure Survey where
  ignorePatterns : List IgnorePattern
  entries : BTreeMap Str Entry
  unstable : BTreeSet Str

/-- The part of `rescan` that looks. -/
def survey (root : PathBuf) : LookM W Survey := do
  let ignorePatterns ← LookM.fs (loadIgnorePatterns root)
  let (_, live) ← LookM.scan (scanFolder root)
  pure ⟨ignorePatterns, live.entries, live.unstable⟩

namespace Survey

/-- The paths that were seen. -/
def seen (s : Survey) : BTreeSet Str :=
  s.entries.keys.foldl (fun s path ↦ s.insert path) s.unstable

/-- The part of `rescan` that records. -/
def record (s : Survey) (st : Recorded) : Recorded :=
  recordDeleted s.seen s.ignorePatterns (recordLive s.entries st)

/-- The entries found are at the paths they were found at. -/
def Placed (s : Survey) : Prop := ∀ (k : Str) (e : Entry), s.entries[k]? = some e → e.path = k

/-- The index says already what was found, and has nothing live that was not. -/
def Settled (entries : Index) (s : Survey) : Prop :=
  (∀ (k : Str) (e : Entry), s.entries[k]? = some e → Replica.Matches entries k e) ∧
    ∀ k : Str, s.seen.contains k = false → shouldIgnore k s.ignorePatterns = false →
      Replica.NotLive entries k

omit [FileSystem W] [Blake3] in
theorem stamps_recordDeleted (seen : BTreeSet Str) (ignorePatterns : List IgnorePattern)
    (st : Recorded) : Stamps st (recordDeleted seen ignorePatterns st) :=
  Replica.stamps_foldl (fun st path _ ↦ Replica.stamps_tombstonePath st path) st

omit [FileSystem W] [Blake3] in
theorem stamps_record {s : Survey} (h : s.Placed) (st : Recorded) : Stamps st (s.record st) :=
  (Sight.stamps_recordLive h st).trans (stamps_recordDeleted _ _ _)

omit [FileSystem W] [Blake3] in
/-- Recording a settled survey changes nothing. -/
theorem record_eq_self {s : Survey} {st : Recorded} (hp : s.Placed)
    (h : s.Settled st.1.entries) : s.record st = st := by
  rw [record, (Sight.recordLive_eq_self_or_adds hp st).1 h.1]
  refine (Replica.foldl_tombstonePath _ st).1 fun k hk ↦ ?_
  obtain ⟨-, hk⟩ := List.mem_filter.mp hk
  simp only [Bool.not_or, Bool.and_eq_true, Bool.not_eq_true'] at hk
  exact h.2 k hk.1 hk.2

/-- What a survey finds is placed where it is found. -/
theorem yields_placed (root : PathBuf) : Yields Placed (survey (W := W) root) := by
  refine yields_bind fun ignorePatterns ↦ ?_
  have hkeyed : Keeps (KeepsKeyed (W := W)) (scanFolder root) :=
    Keeps.bind (keepsKeyed_fs _) fun _ ↦ Keeps.bind keeps_get fun _ ↦ keepsKeyed_scanDir _ _ _ _
  exact (yields_scan_keyed hkeyed).bind fun live hlive ↦ yields_pure hlive

end Survey

/-- `rescan` looks, then records what it saw and derives the trees.  Once it has
looked it cannot fail, and it leaves the saved clock, index and watermark alone. -/
theorem exec_rescan (n : Node W) :
    match exec (survey n.folder.root) n.view with
    | (.error e, v) => exec rescan n = (.error e, n.withView v)
    | (.ok s, _) =>
      let st := s.record (n.folder.toReplica, [])
      ∃ w files cache, exec rescan n = (.ok st.2, {
        world := w
        store := { n.store with scanCache := files }
        folder := { n.folder with toReplica := st.1, scanCache := cache }.deriveTrees }) := by
  rw [rescan, exec_get_bind, survey, exec_bind, exec_bind, exec_fs]
  generalize exec (LookM.fs (loadIgnorePatterns n.folder.root)) n.view = r
  obtain ⟨_ | ignorePatterns, v⟩ := r
  · rfl
  · dsimp only
    rw [exec_bind, exec_bind, exec_scan, Node.view_withView]
    generalize exec (LookM.scan (scanFolder n.folder.root)) v = r
    obtain ⟨_ | live, v'⟩ := r
    · rfl
    · dsimp only
      rw [exec_bind, exec_record]
      dsimp only
      rw [NodeM.modifyFolder, exec_modify_bind, exec_bind]
      generalize hn : (Node.mk _ _ _ : Node W) = n₁
      obtain ⟨w, files, dirty, hsave⟩ := exec_saveScanCache n₁
      rw [hsave]
      subst hn
      exact ⟨w, files, _, rfl⟩

omit [Blake3] in
/-- Saving a file never fails; the file has its new content if the write worked. -/
theorem exec_saveFile (name : Str) (update : FolderState → Store → Store) (n : Node W) :
    ∃ w saved, exec (saveFile name update) n =
      (.ok (), { n with world := w, store := if saved then update n.folder n.store else n.store }) ∧
      (saved = false → ∃ p w err, (exec (writeAtomic p) w : IoResult Unit × W).1 = .error err) := by
  rw [saveFile, exec_get_bind, exec_attempt_bind, exec_fs_world]
  dsimp only
  cases h : (exec (writeAtomic (n.folder.stateDir.join name)) n.world).1 with
  | error err => exact ⟨_, false, rfl, fun _ ↦ ⟨_, _, err, h⟩⟩
  | ok _ => exact ⟨_, true, rfl, fun h ↦ by cases h⟩

/-- The node after the trees were brought up to date and some of the files were
written. -/
def committed (changes : List Change) (lamportSaved entriesSaved : Bool) (w : W) (n : Node W) :
    Node W where
  folder := n.folder.updateTrees (changes.map Change.path)
  store := {
    n.store with
    lamport := if lamportSaved then .saved n.folder.lamport else n.store.lamport
    entries := if entriesSaved then .saved n.folder.entries else n.store.entries }
  world := w

/-- Committing changes never fails: the trees follow, and a file has its new
content if the write worked. -/
theorem exec_commitChanges {changes : List Change} (hc : changes ≠ []) (n : Node W) :
    ∃ w lamportSaved entriesSaved, exec (commitChanges changes) n =
      (.ok (), committed changes lamportSaved entriesSaved w n) ∧
      (lamportSaved = false ∨ entriesSaved = false →
        ∃ p w err, (exec (writeAtomic p) w : IoResult Unit × W).1 = .error err) := by
  rw [commitChanges]
  simp only [ne_eq, hc, not_false_eq_true, ↓reduceIte, NodeM.modifyFolder, exec_modify_bind]
  generalize hn : (Node.mk _ _ _ : Node W) = n₁
  obtain ⟨w, lamportSaved, hl, hlfail⟩ := exec_saveFile (lit "lamport")
    (fun folder store ↦ { store with lamport := .saved folder.lamport }) n₁
  rw [saveLamport, exec_bind_ok hl]
  generalize hn' : (Node.mk _ _ _ : Node W) = n₂
  obtain ⟨w', entriesSaved, he, hefail⟩ := exec_saveFile (lit "entries.bin")
    (fun folder store ↦ { store with entries := .saved folder.entries }) n₂
  rw [saveEntries, he]
  subst hn'
  subst hn
  refine ⟨w', lamportSaved, entriesSaved, ?_, fun h ↦ h.elim hlfail hefail⟩
  cases lamportSaved <;> cases entriesSaved <;> rfl

@[simp] theorem commitChanges_nil : (commitChanges [] : NodeM W Unit) = pure () := rfl

/-- `apply_paths` leaves everything to a full rescan, or fails after recording
what it saw, or goes on to save what it recorded. -/
theorem exec_applyPaths (absPaths : List PathBuf) (n : Node W) :
    let st := recordAll (eventSights n absPaths) (n.folder.toReplica, [])
    ∃ v,
      (eventSights n absPaths = [] ∧ fallbackView n absPaths = some v ∧
        exec (applyPaths absPaths) n = exec rescan (n.withView v)) ∨
      (∃ err, exec (applyPaths absPaths) n = (.error err, (n.withReplica st.1).withView v)) ∨
      exec (applyPaths absPaths) n =
        exec (do saveScanCache; commitChanges st.2; pure st.2)
          ((n.withReplica st.1).withView v) := by
  rw [applyPaths, exec_bind, exec_fs, eventSights, fallbackView]
  match hpaths : exec (LookM.fs (normalizeEventPaths absPaths)) n.view with
  | (.error err, v) => exact ⟨v, .inr (.inl ⟨err, rfl⟩)⟩
  | (.ok paths, v) =>
    dsimp only
    rw [exec_get_bind, Node.root_withView]
    split
    · exact ⟨v, .inl ⟨rfl, rfl, rfl⟩⟩
    · rw [exec_bind, exec_fs, Node.view_withView, Node.withView_withView]
      match hpat : exec (LookM.fs (loadIgnorePatterns n.folder.root)) v with
      | (.error err, v) => exact ⟨v, .inr (.inl ⟨err, rfl⟩)⟩
      | (.ok ignorePatterns, v) =>
        dsimp only
        obtain ⟨⟨v', hv'⟩, hcs⟩ := exec_foldlM_applyPath ignorePatterns paths [] (n.withView v)
        rw [exec_bind]
        generalize exec (paths.foldlM (applyPath ignorePatterns) []) (n.withView v) = r at hv' hcs
        obtain ⟨_ | cs, n'⟩ := r
        · exact ⟨v', .inr (.inl ⟨_, congrArg (Prod.mk _) hv'⟩)⟩
        · obtain rfl := hcs cs rfl
          obtain rfl : n' = _ := hv'
          exact ⟨v', .inr (.inr rfl)⟩

/-- Committing changes leaves index, clock and watermark alone. -/
theorem toReplica_commitChanges (changes : List Change) (n : Node W) :
    (exec (commitChanges changes) n).2.folder.toReplica = n.folder.toReplica := by
  by_cases hc : changes = []
  · rw [hc]
    rfl
  · obtain ⟨w, l, e, h, -⟩ := exec_commitChanges hc n
    rw [h]
    rfl

/-- The index after `apply_paths`: a full rescan has made it, or what was seen has been
recorded. -/
theorem toReplica_applyPaths (absPaths : List PathBuf) (n : Node W) :
    (∃ v, fallbackView n absPaths = some v ∧
        exec (applyPaths absPaths) n = exec rescan (n.withView v)) ∨
      (exec (applyPaths absPaths) n).2.folder.toReplica =
        (recordAll (eventSights n absPaths) (n.folder.toReplica, [])).1 := by
  obtain ⟨v, ⟨-, hv, hrescan⟩ | ⟨err, herr⟩ | hok⟩ := exec_applyPaths absPaths n
  · exact .inl ⟨v, hv, hrescan⟩
  · rw [herr]
    exact .inr rfl
  · rw [hok]
    obtain ⟨w, files, dirty, hcache⟩ := exec_saveScanCache ((n.withReplica
      (recordAll (eventSights n absPaths) (n.folder.toReplica, [])).1).withView v)
    rw [exec_bind_ok hcache, exec_bind]
    generalize hn : (Node.mk _ _ _ : Node W) = n₁
    have hcommit := toReplica_commitChanges
      (recordAll (eventSights n absPaths) (n.folder.toReplica, [])).2 n₁
    have hreplica : n₁.folder.toReplica =
        (recordAll (eventSights n absPaths) (n.folder.toReplica, [])).1 := by
      rw [← hn]
      rfl
    generalize exec (commitChanges _) n₁ = r at hcommit
    obtain ⟨_ | _, n₂⟩ := r
    · exact .inr (hcommit.trans hreplica)
    · exact .inr (hcommit.trans hreplica)

end Loop

end Lilsync
