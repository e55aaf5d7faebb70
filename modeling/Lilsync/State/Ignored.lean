import Lilsync.State.Hidden
import Lilsync.Lib.Machine
import Lilsync.State.Events

/-!
# Ignored directories

A full scan never enters an ignored directory, but an event may name a file deep
inside it, and `apply_one_path` judges the whole path of the file.  So the index
gains nothing at or below an ignored directory, as long as the patterns hide the
events below it too.  They do unless the directory is matched by a pattern that is
anchored or has a slash and does not end in one.
-/

namespace Lilsync

open Std (ExtTreeMap)
open Lilsync.Lib Lilsync.Lib.Proc Lilsync.Lib.Posix Lilsync.Lib.SlashPath
open Lilsync.Lib.Posix.Disk (Later)

/-- The path itself, or something below it. -/
def AtOrBelow (a k : Str) : Prop := k = a ∨ Below slash a k

/-! ## What a scan finds -/

section Open

variable {ps : List IgnorePattern} {a b : PathBuf} {n k dk : Str}

/-- From the directory `a` names lead to the path, and nothing on the way is ignored. -/
def Open (ps : List IgnorePattern) (a : PathBuf) (k : Str) : Prop :=
  ∃ b, b ≠ [] ∧ FileNames b ∧ Unhidden ps a b ∧ relOf (a ++ b) = k

theorem open_singleton (hn : FileName n) (hu : shouldIgnore (relOf (a ++ [n])) ps = false) :
    Open ps a (relOf (a ++ [n])) := by
  refine ⟨[n], by simp, by simpa [FileNames] using hn, unhidden_cons_iff.mpr ⟨hu, ?_⟩, rfl⟩
  exact fun c hc hne ↦ absurd (List.prefix_nil.mp hc) hne

theorem Open.of_concat (hn : FileName n) (hu : shouldIgnore (relOf (a ++ [n])) ps = false)
    (h : Open ps (a ++ [n]) k) : Open ps a k := by
  obtain ⟨b, -, hb, hunhidden, rfl⟩ := h
  refine ⟨n :: b, by simp, List.forall_mem_cons.mpr ⟨hn, hb⟩,
    unhidden_cons_iff.mpr ⟨hu, hunhidden⟩, by simp⟩

/-- What a scan finds lies at or below an ignored path only if the directory it started
from does. -/
theorem Open.not_atOrBelow (hd : shouldIgnore dk ps = true) (ha : FileNames a)
    (hda : a ≠ [] → ¬ AtOrBelow dk (relOf a)) (h : Open ps a k) : ¬ AtOrBelow dk k := by
  obtain ⟨b, hb, hnames, hunhidden, rfl⟩ := h
  have hignored : ∀ c, c <+: b → c ≠ [] → relOf (a ++ c) ≠ dk := by
    rintro c hc hne rfl
    rw [hunhidden c hc hne] at hd
    cases hd
  rintro (hk | hk)
  · exact hignored b List.prefix_rfl hb hk
  · have hall : FileNames (a ++ b) := List.forall_mem_append.mpr ⟨ha, hnames⟩
    obtain ⟨c, hc, -, hne, hcd⟩ := (below_relOf_iff hall).mp hk
    rcases List.prefix_or_prefix_of_prefix hc (List.prefix_append a b) with hca | ⟨c, rfl⟩
    · have hne' : a ≠ [] := fun hnil ↦ hne (List.prefix_nil.mp (hnil ▸ hca))
      by_cases heq : c = a
      · exact hda hne' (.inl (heq ▸ hcd))
      · exact hda hne' (.inr ((below_relOf_iff ha).mpr ⟨c, hca, heq, hne, hcd⟩))
    · by_cases hnil : c = []
      · rw [hnil, List.append_nil] at hcd hne
        exact hda hne (.inl hcd)
      · exact hignored c ((List.prefix_append_right_inj a).mp hc) hnil hcd

/-- A scan from the directory `a` finds nothing else, and takes time. -/
def Opens (ps : List IgnorePattern) (a : PathBuf) (st st' : ScanState Disk) : Prop :=
  Later st.world st'.world ∧
    (st.world.Tree → ∀ k, k ∈ st'.entries → k ∈ st.entries ∨ Open ps a k)

instance : IsPreorder (ScanState Disk) (Opens ps a) where
  refl st := ⟨refl_of Later st.world, fun _ _ ↦ .inl⟩
  trans _ _ _ := by
    rintro ⟨hw, hk⟩ ⟨hw', hk'⟩
    refine ⟨trans_of Later hw hw', fun hT k h ↦ ?_⟩
    exact (hk' (hT.later hw) k h).elim (hk hT k) .inr

theorem keptByLooks_opens : KeptByLooks Later (Opens ps a) where
  fs h st := ⟨h st.world, fun _ _ ↦ .inl⟩
  modifyCache _ st := ⟨refl_of Later st.world, fun _ _ ↦ .inl⟩
  insertUnstable _ st := ⟨refl_of Later st.world, fun _ _ ↦ .inl⟩

theorem fileName_of_readDir {d : Disk} {p : PathBuf} {names : List Str} (hT : d.Tree)
    (h : Posix.readDir d p = .ok names) (hn : n ∈ names) : FileName n := by
  rw [Posix.readDir] at h
  split at h
  · cases h
  · next real _ _ =>
    obtain rfl := Except.ok.inj h
    obtain ⟨o, ho⟩ := Disk.mem_childNames.mp hn
    exact hT.fileName _ o ho n (by simp)
  · cases h

variable [Blake3] {root : PathBuf}

theorem opens_scanChild {descend : PathBuf → ScanM Disk Unit} (hn : FileName n)
    (hdescend : Keeps (Opens ps (a ++ [n])) (descend (root ++ (a ++ [n])))) :
    Keeps (Opens ps a) (scanChild root ps descend (root ++ (a ++ [n]))) := by
  have hrel := relativePath_append root (a ++ [n])
  refine keptByLooks_opens.scanChild looks_later (fun entry hentry hu st ↦ ?_) fun k hk hu ↦ ?_
  · have hpath : relOf (a ++ [n]) = entry.path := Except.ok.inj (hrel.symm.trans hentry)
    refine ⟨refl_of Later st.world, fun _ k hk ↦ ?_⟩
    rcases ExtTreeMap.mem_insert.mp hk with hk | hk
    · rw [← Std.LawfulEqCmp.eq_of_compare hk, ← hpath]
      exact .inr (open_singleton hn (hpath ▸ hu))
    · exact .inl hk
  · obtain rfl : relOf (a ++ [n]) = k := Except.ok.inj (hrel.symm.trans hk)
    refine hdescend.mono ?_
    rintro st st' ⟨hw, hfound⟩
    exact ⟨hw, fun hT k hk ↦ (hfound hT k hk).imp id (Open.of_concat hn hu)⟩

theorem opens_scanDir (root : PathBuf) (ps : List IgnorePattern) (depth : Nat) (a : PathBuf) :
    Keeps (Opens ps a) (scanDir root ps depth (root ++ a)) := by
  induction depth generalizing a with
  | zero => exact keeps_throw _
  | succ depth ih =>
    intro st
    refine ⟨looks_later.scanDir (depth + 1) (root ++ a) st, fun hT k hk ↦ ?_⟩
    have hread : exec (ScanM.fs (FileSystem.readDir (root ++ a))) st =
        ((Posix.readDir st.world (root ++ a)).mapError ofErrno, st) := rfl
    rw [scanDir] at hk
    cases hnames : Posix.readDir st.world (root ++ a) with
    | error e =>
      rw [hnames] at hread
      rw [exec_bind_error hread] at hk
      exact .inl hk
    | ok names =>
      rw [hnames] at hread
      rw [exec_bind_ok hread] at hk
      have hkeeps : Keeps (Opens ps a) (((names.map fun name ↦ root ++ a ++ [name]).insertionSort
          fun a b ↦ (compare a b).isLE).forM (scanChild root ps (scanDir root ps depth))) := by
        refine Keeps.forM fun path hp ↦ ?_
        rw [List.mem_insertionSort, List.mem_map] at hp
        obtain ⟨n, hn, rfl⟩ := hp
        rw [List.append_assoc]
        exact opens_scanChild (fileName_of_readDir hT hnames hn) (ih _)
      exact (hkeeps st).2 hT k hk

end Open

/-! ## What is recorded -/

section Record

variable {path relative k : Str} {live : Entry} {st : Recorded}

theorem mem_of_entombs {r r' : Replica} (h : Replica.Entombs r r' k) : k ∈ r.entries := by
  obtain ⟨old, version, hold, -⟩ := h
  exact ExtTreeMap.mem_iff_isSome_getElem?.mpr (by rw [hold]; rfl)

theorem mem_of_getElem?_eq {m m' : Index} (h : m[k]? = m'[k]?) (hk : k ∈ m) : k ∈ m' := by
  rw [ExtTreeMap.mem_iff_isSome_getElem?] at hk ⊢
  rwa [← h]

/-- Recording what was observed at a path adds no other path. -/
theorem mem_updateEntry (h : k ∈ (Replica.updateEntry path live st).1.entries) :
    k = path ∨ k ∈ st.1.entries := by
  by_cases hk : k = path
  · exact .inl hk
  · rcases Replica.updateEntry_cases st hk with heq | ⟨-, hentombs⟩
    · exact .inr (mem_of_getElem?_eq heq h)
    · exact .inr (mem_of_entombs hentombs)

/-- Burying adds no path. -/
theorem mem_foldl_tombstonePath {l : List Str}
    (h : k ∈ (l.foldl Replica.tombstonePath st).1.entries) : k ∈ st.1.entries := by
  rcases Replica.foldl_tombstonePath_cases l st k with heq | ⟨-, hentombs⟩
  · exact mem_of_getElem?_eq heq h
  · exact mem_of_entombs hentombs

/-- Recording what a scan found adds no other path. -/
theorem mem_recordLive {found : BTreeMap Str Entry} (h : k ∈ (recordLive found st).1.entries) :
    k ∈ found ∨ k ∈ st.1.entries := by
  have hlist : ∀ (l : List (Str × Entry)) (st : Recorded),
      k ∈ (l.foldl (fun st kv ↦ Replica.updateEntry kv.1 kv.2 st) st).1.entries →
        (∃ e, (k, e) ∈ l) ∨ k ∈ st.1.entries := by
    intro l
    induction l with
    | nil => exact fun _ ↦ .inr
    | cons kv l ih =>
      intro st h
      rcases ih _ h with ⟨e, he⟩ | h
      · exact .inl ⟨e, List.mem_cons_of_mem _ he⟩
      · rcases mem_updateEntry h with rfl | h
        · exact .inl ⟨kv.2, List.mem_cons_self⟩
        · exact .inr h
  refine (hlist _ st h).imp ?_ id
  rintro ⟨e, he⟩
  have he := ExtTreeMap.mem_toList_iff_getElem?_eq_some.mp he
  exact ExtTreeMap.mem_iff_isSome_getElem?.mpr (by rw [he]; rfl)

namespace Sight

/-- The sight shows something at a path. -/
def Shows (relative k : Str) : Sight → Prop
  | .nothing => False
  | .gone => False
  | .leaf _ => k = relative
  | .dir _ below => k = relative ∨ ∃ found, below = .ok found ∧ k ∈ found

/-- Recording a sight adds only what it shows. -/
theorem mem_record {s : Sight} (h : k ∈ (s.record relative st).1.entries) :
    s.Shows relative k ∨ k ∈ st.1.entries := by
  cases s with
  | nothing => exact .inr h
  | gone => exact .inr (mem_foldl_tombstonePath h)
  | leaf live => exact mem_updateEntry h
  | dir live below =>
    cases below with
    | error err => exact (mem_updateEntry h).imp .inl id
    | ok found =>
      rcases mem_recordLive h with hk | hk
      · exact .inl (.inr ⟨found, rfl, hk⟩)
      · exact (mem_updateEntry hk).imp .inl id

end Sight

theorem mem_recordAll {seen : List (Str × Sight)} (h : k ∈ (recordAll seen st).1.entries) :
    (∃ rs ∈ seen, rs.2.Shows rs.1 k) ∨ k ∈ st.1.entries := by
  induction seen generalizing st with
  | nil => exact .inr h
  | cons rs seen ih =>
    rcases ih h with ⟨rs', hrs', hshows⟩ | h
    · exact .inl ⟨rs', List.mem_cons_of_mem _ hrs', hshows⟩
    · exact (Sight.mem_record h).imp (fun hshows ↦ ⟨rs, List.mem_cons_self, hshows⟩) id

/-- Recording a survey adds only what it found. -/
theorem Survey.mem_record {s : Survey} (h : k ∈ (s.record st).1.entries) :
    k ∈ s.entries ∨ k ∈ st.1.entries := mem_recordLive (mem_foldl_tombstonePath h)

end Record

/-! ## Looking -/

section Look

variable [Blake3] {root names : PathBuf} {ps : List IgnorePattern} {relative k : Str}
  {v v' : Disk × ScanCache} {s : Sight}

/-- A sight that shows nothing but the path itself. -/
def Sight.Single (relative : Str) (s : Sight) : Prop := ∀ k, s.Shows relative k → k = relative

/-- A look shows the path it looked at, and what a scan from there finds. -/
theorem shows_of_exec_look (hT : v.1.Tree)
    (h : exec (look root (root ++ names) (relOf names) ps) v = (.ok s, v'))
    (hs : s.Shows (relOf names) k) :
    shouldIgnore (relOf names) ps = false ∧ (k = relOf names ∨ Open ps names k) := by
  rw [look] at h
  by_cases hi : shouldIgnore (relOf names) ps
  · rw [if_pos hi, exec_pure] at h
    obtain ⟨hs', -⟩ := Prod.mk.inj h
    obtain rfl := Except.ok.inj hs'
    exact hs.elim
  · rw [if_neg hi, exec_attempt_bind] at h
    refine ⟨Bool.eq_false_of_not_eq_true hi, ?_⟩
    have hsingle {α : Type} (m : LookM Disk α) (f : α → LookM Disk Sight)
        (hf : ∀ a, Yields (Sight.Single (relOf names)) (f a))
        (h : exec (m >>= f) v = (.ok s, v')) : k = relOf names :=
      yields_bind hf v s (congrArg Prod.fst h) k hs
    have hv : (exec (LookM.fs (FileSystem.symlinkMetadata (root ++ names))) v).2 = v := rfl
    rw [hv] at h
    cases hm : (exec (LookM.fs (FileSystem.symlinkMetadata (root ++ names))) v).1 with
    | error err =>
      rw [hm] at h
      dsimp only at h
      split at h
      · obtain ⟨hs', -⟩ := Prod.mk.inj h
        obtain rfl := Except.ok.inj hs'
        exact hs.elim
      · cases h
    | ok metadata =>
      rw [hm] at h
      dsimp only at h
      split at h
      · refine .inl (hsingle _ _ (fun target ↦ ?_) h)
        split
        · exact yields_pure fun _ ↦ id
        · exact yields_pure fun _ ↦ False.elim
      · split at h
        · refine .inl (hsingle _ _ (fun r ↦ ?_) h)
          split
          · exact yields_pure fun _ ↦ id
          · exact yields_pure fun _ ↦ False.elim
        · split at h
          · rw [exec_get_bind, exec_attempt_bind, exec_pure] at h
            obtain ⟨hs', -⟩ := Prod.mk.inj h
            obtain rfl := Except.ok.inj hs'
            refine hs.imp id ?_
            rintro ⟨found, hfound, hk⟩
            rw [exec_lookScan] at hfound
            have hopens := (opens_scanDir root ps (FileSystem.depthLimit v.1) names
              ⟨v.1, v.2, ∅, ∅⟩).2 hT k
            generalize exec (scanDir root ps (FileSystem.depthLimit v.1) (root ++ names))
              ⟨v.1, v.2, ∅, ∅⟩ = r at hfound hopens
            obtain ⟨_ | _, st'⟩ := r
            · cases hfound
            · obtain rfl := Except.ok.inj hfound
              exact (hopens hk).resolve_left (by simp)
          · obtain ⟨hs', -⟩ := Prod.mk.inj h
            obtain rfl := Except.ok.inj hs'
            exact hs.elim

omit [Blake3] in
theorem eq_of_relativePath {p : PathBuf} (h : relativePath root p = .ok k) :
    ∃ names, p = root ++ names ∧ relOf names = k := by
  rw [relativePath, PathBuf.stripPrefix] at h
  split at h
  · next names hnames =>
    split at hnames
    · next hprefix =>
      obtain ⟨names', rfl⟩ := List.isPrefixOf_iff_prefix.mp hprefix
      obtain rfl := Option.some.inj hnames
      rw [List.drop_left] at h
      exact ⟨names', rfl, Except.ok.inj h⟩
    · cases hnames
  · cases h

/-- What is seen on a tree. -/
theorem shows_of_mem_sights {paths : List PathBuf} {rs : Str × Sight} (hT : v.1.Tree)
    (h : rs ∈ sights root ps paths v) (hs : rs.2.Shows rs.1 k) :
    ∃ names, root ++ names ∈ paths ∧ relOf names ≠ [] ∧ shouldIgnore (relOf names) ps = false ∧
      (k = relOf names ∨ Open ps names k) := by
  induction paths generalizing v with
  | nil => cases h
  | cons absPath paths ih =>
    rw [sights] at h
    have htail {v : Disk × ScanCache} (hT : v.1.Tree) (h : rs ∈ sights root ps paths v) :
        ∃ names, root ++ names ∈ absPath :: paths ∧ relOf names ≠ [] ∧
          shouldIgnore (relOf names) ps = false ∧ (k = relOf names ∨ Open ps names k) := by
      obtain ⟨names, hmem, hrest⟩ := ih hT h
      exact ⟨names, List.mem_cons_of_mem _ hmem, hrest⟩
    split at h
    · exact htail hT h
    · next relative hrel =>
      obtain ⟨names, rfl, rfl⟩ := eq_of_relativePath hrel
      split at h
      · exact htail hT h
      · next hne =>
        have hhead {s : Sight} {v' : Disk × ScanCache}
            (hlook : exec (look root (root ++ names) (relOf names) ps) v = (.ok s, v'))
            (hs : s.Shows (relOf names) k) : ∃ names', root ++ names' ∈ (root ++ names) :: paths ∧
              relOf names' ≠ [] ∧ shouldIgnore (relOf names') ps = false ∧
              (k = relOf names' ∨ Open ps names' k) :=
          ⟨names, List.mem_cons_self, hne, shows_of_exec_look hT hlook hs⟩
        have hlater := looks_later.look root (root ++ names) (relOf names) ps v
        split at h
        · cases h
        · next hlook =>
          obtain rfl := List.mem_singleton.mp h
          exact hhead hlook hs
        · next hlook =>
          rw [hlook] at hlater
          rcases List.mem_cons.mp h with rfl | h
          · exact hhead hlook hs
          · exact htail (hT.later hlater) h

end Look

/-! ## Calls and runs -/

section Runs

variable [Blake3] {dk : Str} {ps : List IgnorePattern} {n : Node Disk}

/-- The index has nothing at or below the path. -/
def NothingAt (dk : Str) (n : Node Disk) : Prop := ∀ k, AtOrBelow dk k → k ∉ n.folder.entries

/-- An event path stands for what has these names below the folder. -/
def EventFor (n : Node Disk) (p names : PathBuf) : Prop :=
  (exec (normalizeEventPath p) n.world).1 = .ok (some (n.folder.root ++ names))

/-- The patterns hide all events below the path. -/
def HidesEvents (dk : Str) (ps : List IgnorePattern) (n : Node Disk) (absPaths : List PathBuf) :
    Prop :=
  ∀ p ∈ absPaths, ∀ names, EventFor n p names → Below slash dk (relOf names) →
    shouldIgnore (relOf names) ps = true

/-- The runs of a node with these patterns that has nothing at or below a path: the
folder is edited, but for the patterns, it is scanned, and events are processed. -/
def localRuns (dk : Str) (ps : List IgnorePattern) (Q : Node Disk → List PathBuf → Prop) :
    Machine (Node Disk) where
  init n := n.world.Tree ∧ HasPatterns n.world n.folder.root ps ∧ NothingAt dk n
  step n n' :=
    (∃ d, d.Tree ∧ HasPatterns d n.folder.root ps ∧ n' = { n with world := d }) ∨
      n' = (exec rescan n).2 ∨
      ∃ absPaths, (∀ p ∈ absPaths, IsPath p) ∧ Q n absPaths ∧ n' = (exec (applyPaths absPaths) n).2

variable {d : Disk} {root : PathBuf} {cache : ScanCache} {v : Disk × ScanCache} {s : Survey}

/-- What a survey finds is not ignored and not in an ignored directory. -/
theorem open_of_exec_survey (hT : d.Tree) (hps : HasPatterns d root ps)
    (h : exec (survey root) (d, cache) = (.ok s, v)) {k : Str} (hk : k ∈ s.entries) :
    Open ps [] k := by
  have hload : exec (LookM.fs (loadIgnorePatterns root)) (d, cache) = (.ok ps, d, cache) := by
    rw [LookM.fs, exec_zoom, exec_loadIgnorePatterns, hps]
  have hload' : exec (ScanM.fs (loadIgnorePatterns root)) (⟨d, cache, ∅, ∅⟩ : ScanState Disk) =
      (.ok ps, ⟨d, cache, ∅, ∅⟩) := by
    rw [ScanM.fs, exec_zoom, exec_loadIgnorePatterns, hps]
  have hopens := (opens_scanDir root ps (FileSystem.depthLimit d) []
    ⟨d, cache, ∅, ∅⟩).2 hT k
  rw [List.append_nil] at hopens
  rw [survey, exec_bind_ok hload, exec_bind, exec_lookScan, scanFolder, exec_bind_ok hload',
    exec_get_bind] at h
  dsimp only at h
  generalize exec (scanDir root ps (FileSystem.depthLimit d) root) ⟨d, cache, ∅, ∅⟩ = r at h hopens
  obtain ⟨_ | _, st'⟩ := r
  · cases h
  · obtain ⟨hs, -⟩ := Prod.mk.inj h
    obtain rfl := Except.ok.inj hs
    exact (hopens hk).resolve_left (by simp)

theorem nothingAt_rescan (hd : shouldIgnore dk ps = true) (hT : n.world.Tree)
    (hps : HasPatterns n.world n.folder.root ps) (h : NothingAt dk n) :
    NothingAt dk (exec rescan n).2 := by
  intro k hk hmem
  have hspec := exec_rescan n
  match hsurvey : exec (survey n.folder.root) n.view with
  | (.error err, v) =>
    rw [hsurvey] at hspec
    rw [hspec] at hmem
    exact h k hk hmem
  | (.ok s, v) =>
    rw [hsurvey] at hspec
    obtain ⟨w, files, cache, hexec⟩ := hspec
    rw [hexec] at hmem
    rcases Survey.mem_record hmem with hfound | hold
    · have hopen := open_of_exec_survey hT hps hsurvey hfound
      exact hopen.not_atOrBelow hd (by simp [FileNames]) (fun hne ↦ absurd rfl hne) hk
    · exact h k hk hold

theorem nothingAt_applyPaths (hd : shouldIgnore dk ps = true) (hT : n.world.Tree)
    (hps : HasPatterns n.world n.folder.root ps) {absPaths : List PathBuf}
    (hpaths : ∀ p ∈ absPaths, IsPath p) (hhides : HidesEvents dk ps n absPaths)
    (h : NothingAt dk n) : NothingAt dk (exec (applyPaths absPaths) n).2 := by
  have hload : exec (LookM.fs (loadIgnorePatterns n.folder.root)) (n.world, n.folder.scanCache) =
      (.ok ps, n.world, n.folder.scanCache) := by
    rw [LookM.fs, exec_zoom, exec_loadIgnorePatterns, hps]
  -- what the events show is neither ignored nor in the ignored directory
  have hseen : ∀ k, AtOrBelow dk k →
      k ∉ (recordAll (eventSights n absPaths) (n.folder.toReplica, [])).1.entries := by
    intro k hk hmem
    rcases mem_recordAll hmem with ⟨rs, hrs, hshows⟩ | hold
    · rw [eventSights, LookM.fs, exec_zoom, Node.view, exec_normalizeEventPaths] at hrs
      dsimp only at hrs
      split at hrs
      · cases hrs
      · rw [hload] at hrs
        obtain ⟨names, hnames, hne, hu, hk'⟩ := shows_of_mem_sights hT hrs hshows
        obtain ⟨p, hp, hnormal⟩ := List.mem_filterMap.mp hnames
        have hfile : FileNames names := fun x hx ↦
          fileNames_of_normalPath hT (hpaths p hp) hnormal x (List.mem_append_right _ hx)
        have hevent : EventFor n p names := by
          rw [EventFor, exec_normalizeEventPath, hnormal]
        have hnot : ¬ AtOrBelow dk (relOf names) := by
          rintro (heq | hbelow)
          · rw [← heq, hu] at hd
            cases hd
          · rw [hhides p hp names hevent hbelow] at hu
            cases hu
        rcases hk' with rfl | hopen
        · exact hnot hk
        · exact hopen.not_atOrBelow hd hfile (fun _ ↦ hnot) hk
    · exact h k hk hold
  rcases toReplica_applyPaths absPaths n with ⟨v, hv, hrescan⟩ | hreplica
  · rw [fallbackView, LookM.fs, exec_zoom, Node.view, exec_normalizeEventPaths] at hv
    dsimp only at hv
    split at hv
    · obtain rfl := Option.some.inj hv
      rw [hrescan]
      exact nothingAt_rescan hd hT hps h
    · cases hv
  · intro k hk
    rw [hreplica]
    exact hseen k hk

/-- The index gains nothing at or below an ignored path, as long as the patterns hide
the events below it. -/
theorem nothingAt_of_reachable (dk : Str) (ps : List IgnorePattern)
    (hd : shouldIgnore dk ps = true) (hn : (localRuns dk ps (HidesEvents dk ps)).Reachable n) :
    NothingAt dk n := by
  refine (hn.invariant (I := fun n ↦ n.world.Tree ∧ HasPatterns n.world n.folder.root ps ∧
    NothingAt dk n) (fun _ h ↦ h) ?_).2.2
  rintro n n' - ⟨hT, hps, hnothing⟩ (⟨d, hd, hdps, rfl⟩ | rfl | ⟨absPaths, hpaths, hhides, rfl⟩)
  · exact ⟨hd, hdps, hnothing⟩
  · obtain ⟨hlater, hroot⟩ := looks_later.rescan n
    refine ⟨hT.later hlater, ?_, nothingAt_rescan hd hT hps hnothing⟩
    rw [hroot]
    exact hps.later hlater
  · obtain ⟨hlater, hroot⟩ := looks_later.applyPaths absPaths n
    refine ⟨hT.later hlater, ?_, nothingAt_applyPaths hd hT hps hpaths hhides hnothing⟩
    rw [hroot]
    exact hps.later hlater

end Runs

/-- The pattern `/build`. -/
def buildPattern : IgnorePattern := ⟨lit "build", false, false, true, false⟩

/-- A node with this pattern and the file `build/keep.txt`, which it has not scanned. -/
def buildNode [Blake3] : Node Disk :=
  Node.blank [lit "r"] (lit "A") (keepDisk (lit "/build\n"))

/-- An event for the directory itself, and a scan. -/
theorem nothingAt_of_reachable_build : letI : Blake3 := Blake3.reference
    NothingAt (lit "build")
      (exec rescan (exec (applyPaths [[lit "r", lit "build"]]) buildNode).2).2 := by
  let _ : Blake3 := Blake3.reference
  have hT : buildNode.world.Tree := by decide +kernel
  have hps : HasPatterns buildNode.world buildNode.folder.root [buildPattern] := by decide +kernel
  have hstart : (localRuns (lit "build") [buildPattern]
      (HidesEvents (lit "build") [buildPattern])).Reachable buildNode := by
    refine .init ⟨hT, hps, fun k _ hk ↦ ?_⟩
    have hempty : buildNode.folder.entries = ∅ := rfl
    simp [hempty] at hk
  refine nothingAt_of_reachable (lit "build") [buildPattern] (by decide +kernel)
    (.step (.step hstart (.inr (.inr ⟨[[lit "r", lit "build"]], by decide, ?_, rfl⟩))) (.inr (.inl rfl)))
  intro p hp names hevent hbelow
  obtain rfl := List.mem_singleton.mp hp
  have hnormal : (exec (normalizeEventPath [lit "r", lit "build"]) buildNode.world).1 =
      .ok (some [lit "r", lit "build"]) := by decide +kernel
  rw [EventFor, hnormal] at hevent
  have hnames : [lit "r", lit "build"] = [lit "r"] ++ names := Option.some.inj (Except.ok.inj hevent)
  obtain rfl : [lit "build"] = names := (List.cons.inj hnames).2
  exact absurd hbelow (by decide)

/-- An event for the file adds it to the index, although the directory is ignored. -/
theorem not_forall_nothingAt : ¬ ∀ (_ : Blake3) (dk : Str) (ps : List IgnorePattern),
    (∀ p ∈ ps, p.negated = false) → shouldIgnore dk ps = true →
      ∀ n, (localRuns dk ps fun _ _ ↦ True).Reachable n → NothingAt dk n := by
  intro h
  let _ : Blake3 := Blake3.reference
  have hT : buildNode.world.Tree := by decide +kernel
  have hps : HasPatterns buildNode.world buildNode.folder.root [buildPattern] := by decide +kernel
  have hstart : (localRuns (lit "build") [buildPattern] fun _ _ ↦ True).Reachable buildNode := by
    refine .init ⟨hT, hps, fun k _ hk ↦ ?_⟩
    have hempty : buildNode.folder.entries = ∅ := rfl
    simp [hempty] at hk
  have hrun := Machine.Reachable.step hstart
    (.inr (.inr ⟨[[lit "r", lit "build", lit "keep.txt"]], by decide, trivial, rfl⟩))
  have hnothing := h _ (lit "build") [buildPattern] (by decide) (by decide +kernel) _ hrun
  have hmem : lit "build/keep.txt" ∈ (exec (applyPaths [[lit "r", lit "build", lit "keep.txt"]])
      buildNode).2.folder.entries := by decide +kernel
  exact hnothing (lit "build/keep.txt") (.inr (by decide)) hmem

/-! ## Patterns that hide what is below -/

section Deep

variable {pattern : IgnorePattern} {ps : List IgnorePattern} {a k : Str}

/-- A pattern for directories, or for names at any depth. -/
def IgnorePattern.Deep (pattern : IgnorePattern) : Prop :=
  pattern.directoryOnly = true ∨ pattern.anchored = false ∧ pattern.hasSlash = false

theorem splitOn_of_below (h : Below slash a k) :
    ∃ rest, k.splitOn slash = a.splitOn slash ++ rest := by
  obtain ⟨rest, rfl⟩ := h
  rw [List.append_assoc, List.singleton_append, List.splitOn_append_cons_self]
  exact ⟨_, rfl⟩

theorem directoryCandidates_subset (h : Below slash a k) :
    directoryCandidates a ⊆ directoryCandidates k := by
  obtain ⟨rest, hrest⟩ := splitOn_of_below h
  intro c hc
  rw [directoryCandidates, List.mem_map] at hc ⊢
  obtain ⟨i, hi, rfl⟩ := hc
  rw [List.mem_range] at hi
  refine ⟨i, ?_, ?_⟩
  · rw [List.mem_range, hrest, List.length_append]
    omega
  · rw [hrest, List.take_append_of_le_length (by omega)]

/-- What such a pattern matches it matches with everything below. -/
theorem IgnorePattern.Deep.matches_of_below (hdeep : pattern.Deep) (h : Below slash a k)
    (hm : matchesIgnorePattern pattern a = true) : matchesIgnorePattern pattern k = true := by
  rw [matchesIgnorePattern, List.any_eq_true] at hm ⊢
  obtain ⟨target, ht, hmatch⟩ := hm
  rcases hdeep with hdir | ⟨hanchored, hslash⟩
  · rw [if_pos hdir] at ht ⊢
    exact ⟨target, directoryCandidates_subset h ht, hmatch⟩
  · by_cases hdir : pattern.directoryOnly
    · rw [if_pos hdir] at ht ⊢
      exact ⟨target, directoryCandidates_subset h ht, hmatch⟩
    · rw [if_neg hdir, List.mem_singleton] at ht
      subst ht
      rw [if_neg hdir]
      refine ⟨k, List.mem_singleton_self k, ?_⟩
      simp only [hanchored, hslash, Bool.false_eq_true, ↓reduceIte, List.any_eq_true] at hmatch ⊢
      obtain ⟨c, hc, hglob⟩ := hmatch
      obtain ⟨rest, hrest⟩ := splitOn_of_below h
      exact ⟨c, by rw [hrest]; exact List.mem_append_left _ hc, hglob⟩

/-- Without negations any matching pattern decides. -/
theorem matchesIgnorePatterns_iff (hneg : ∀ p ∈ ps, p.negated = false) :
    matchesIgnorePatterns ps k = true ↔ ∃ p ∈ ps, matchesIgnorePattern p k = true := by
  have hfold : ∀ (ps : List IgnorePattern) (b : Bool), (∀ p ∈ ps, p.negated = false) →
      (ps.foldl (fun ignored p ↦ if matchesIgnorePattern p k then !p.negated else ignored) b = true ↔
        b = true ∨ ∃ p ∈ ps, matchesIgnorePattern p k = true) := by
    intro ps
    induction ps with
    | nil => simp
    | cons p ps ih =>
      intro b hneg
      rw [List.forall_mem_cons] at hneg
      rw [List.foldl_cons, ih _ hneg.2, hneg.1, List.exists_mem_cons_iff]
      by_cases hp : matchesIgnorePattern p k
      · simp [hp]
      · simp [hp]
  rw [matchesIgnorePatterns, hfold ps false hneg]
  simp

theorem components_subset (h : Below slash a k) : components a ⊆ components k := by
  by_cases hnil : a = []
  · rw [hnil]
    exact List.nil_subset _
  · obtain ⟨rest, hrest⟩ := splitOn_of_below h
    obtain ⟨below, rfl⟩ := h
    have habs : isAbsolute (a ++ [slash] ++ below) = isAbsolute a := by
      rw [isAbsolute, isAbsolute, List.append_assoc, List.head?_append_of_ne_nil _ hnil]
    have hhead : (a.splitOn slash ++ rest).head? = (a.splitOn slash).head? :=
      List.head?_append_of_ne_nil _ (List.splitOn_ne_nil _ _)
    rw [components, components, habs, hrest, hhead, List.filterMap_append]
    split
    · exact List.cons_subset_cons _ (List.subset_append_left _ _)
    · split
      · exact List.cons_subset_cons _ (List.subset_append_left _ _)
      · exact List.subset_append_left _ _

/-- Without negations, what is below an ignored path is ignored if the patterns that
match the path are of this kind. -/
theorem shouldIgnore_of_below (hneg : ∀ p ∈ ps, p.negated = false)
    (hdeep : ∀ p ∈ ps, matchesIgnorePattern p a = true → p.Deep)
    (ha : shouldIgnore a ps = true) (h : Below slash a k) : shouldIgnore k ps = true := by
  have hk : k ≠ ignoreFileName := by
    rintro rfl
    exact absurd (mem_of_below h) (by decide)
  rw [shouldIgnore] at ha ⊢
  rw [if_neg hk, Bool.or_eq_true]
  split at ha
  · cases ha
  · rcases (Bool.or_eq_true _ _).mp ha with hbuiltin | hmatch
    · obtain ⟨c, hc, hignored⟩ := List.any_eq_true.mp hbuiltin
      exact .inl (List.any_eq_true.mpr ⟨c, components_subset h hc, hignored⟩)
    · obtain ⟨p, hp, hm⟩ := (matchesIgnorePatterns_iff hneg).mp hmatch
      exact .inr ((matchesIgnorePatterns_iff hneg).mpr ⟨p, hp, (hdeep p hp hm).matches_of_below h hm⟩)

/-- Then the patterns hide all events below the path. -/
theorem hidesEvents_of_deep (hneg : ∀ p ∈ ps, p.negated = false)
    (hdeep : ∀ p ∈ ps, matchesIgnorePattern p a = true → p.Deep) (ha : shouldIgnore a ps = true)
    (n : Node Disk) (absPaths : List PathBuf) : HidesEvents a ps n absPaths :=
  fun _ _ _ _ hbelow ↦ shouldIgnore_of_below hneg hdeep ha hbelow

end Deep

end Lilsync
