import Lilsync.Replica.Bury
import Lilsync.Scan.Tree
import Lilsync.State.Sight

/-!
# What a rescan leaves in the index

A rescan records what the scan found, parents before what lies in them, and then
turns into tombstones what it did not find and the patterns do not hide.  So what
was found is in the index afterwards, up to versions.
-/

namespace Lilsync

open Std (ExtTreeMap ExtTreeSet)
open Lilsync.Lib Lilsync.Lib.Proc Lilsync.Lib.Posix Lilsync.Lib.SlashPath

/-! ## Recording what was found -/

section Record

open Replica

variable {live : BTreeMap Str Entry} {st : Recorded} {k : Str}

/-- Recording a list of entries leaves a path alone that is not listed and not
below a listed one. -/
theorem getElem?_foldl_updateEntry_of_not {l : List (Str × Entry)}
    (h : ∀ kv ∈ l, kv.1 ≠ k ∧ ¬ Below slash kv.1 k) (st : Recorded) :
    (l.foldl (fun st (path, entry) ↦ updateEntry path entry st) st).1.entries[k]? =
      st.1.entries[k]? := by
  induction l generalizing st with
  | nil => rfl
  | cons kv l ih =>
    obtain ⟨hne, hbelow⟩ := h kv List.mem_cons_self
    rw [List.foldl_cons, ih fun kv hkv ↦ h kv (List.mem_cons_of_mem _ hkv)]
    rcases updateEntry_cases st hne.symm with heq | ⟨hb, -⟩
    · exact heq
    · exact absurd hb hbelow

/-- What was found is in the index, up to its version. -/
theorem getElem?_recordLive {live : BTreeMap Str Entry} {k : Str} {e : Entry}
    (h : live[k]? = some e) (st : Recorded) :
    ∃ e', (recordLive live st).1.entries[k]? = some e' ∧ sameObservedState e' e := by
  have hlist : ∀ (l : List (Str × Entry)), l.Pairwise (fun a b ↦ compare a.1 b.1 = .lt) →
      ∀ st : Recorded, (k, e) ∈ l → ∃ e',
        (l.foldl (fun st (path, entry) ↦ updateEntry path entry st) st).1.entries[k]? = some e' ∧
          sameObservedState e' e := by
    intro l
    induction l with
    | nil => exact fun _ _ hmem ↦ absurd hmem List.not_mem_nil
    | cons kv l ih =>
      intro hl st hmem
      obtain ⟨hfirst, hl⟩ := List.pairwise_cons.mp hl
      rcases List.mem_cons.mp hmem with rfl | hmem
      · -- what comes later is neither at the path nor above it
        obtain ⟨e', he', hsame⟩ := getElem?_updateEntry_self k e st
        refine ⟨e', ?_, hsame⟩
        rw [List.foldl_cons]
        refine (getElem?_foldl_updateEntry_of_not (fun kv hkv ↦ ⟨?_, ?_⟩) _).trans he'
        · rintro rfl
          have hrefl : compare kv.1 kv.1 = .eq := Std.ReflCmp.compare_self
          rw [hfirst kv hkv] at hrefl
          cases hrefl
        · exact not_below_of_compare_lt (hfirst kv hkv)
      · exact ih hl (updateEntry kv.1 kv.2 st) hmem
  exact hlist _ ExtTreeMap.ordered_keys_toList st
    (ExtTreeMap.mem_toList_iff_getElem?_eq_some.mpr h)

/-- Recording deletions leaves alone what was seen. -/
theorem getElem?_recordDeleted_of_seen {seen : BTreeSet Str} {ps : List IgnorePattern}
    (h : k ∈ seen) (st : Recorded) :
    (recordDeleted seen ps st).1.entries[k]? = st.1.entries[k]? := by
  rcases foldl_tombstonePath_cases _ st k with heq | ⟨hmem, -⟩
  · exact heq
  · have hk := (List.mem_filter.mp hmem).2
    have hseen : seen.contains k = true := ExtTreeSet.mem_iff_contains.mp h
    simp [hseen] at hk

end Record

/-! ## A rescan of a tree -/

section Tree

variable [Blake3] {d : Disk} {root : PathBuf} {ps : List IgnorePattern}
  {files : BTreeMap Str CachedFile} {n : Node Disk}

omit [Blake3] in
/-- Reading the patterns changes nothing. -/
theorem exec_loadIgnorePatterns (root : PathBuf) (d : Disk) :
    exec (loadIgnorePatterns root) d = ((exec (loadIgnorePatterns root) d).1, d) := by
  have hkeeps : Keeps (Same id) (loadIgnorePatterns root : Fs Disk (List IgnorePattern)) := by
    refine Keeps.bind (fun _ ↦ rfl) fun r ↦ ?_
    cases r with
    | ok contents =>
      dsimp only
      split
      · exact keeps_pure _
      · exact keeps_throw _
    | error err =>
      dsimp only
      split
      · exact keeps_pure _
      · exact keeps_throw _
  exact Prod.ext rfl (hkeeps d)

/-- The patterns of the folder. -/
def HasPatterns (d : Disk) (root : PathBuf) (ps : List IgnorePattern) : Prop :=
  (exec (loadIgnorePatterns root) d).1 = .ok ps

instance (d : Disk) (root : PathBuf) (ps : List IgnorePattern) : Decidable (HasPatterns d root ps) :=
  inferInstanceAs (Decidable (_ = _))

/-- What a survey of a tree finds. -/
structure Surveyed (d : Disk) (root : PathBuf) (ps : List IgnorePattern)
    (files : BTreeMap Str CachedFile) (s : Survey) : Prop where
  ignorePatterns_eq : s.ignorePatterns = ps
  unstable_eq : s.unstable = ∅
  found : ∀ (k : Str) (e : Entry), s.entries[k]? = some e → ∃ q o, q ≠ [] ∧ Unhidden ps [] q ∧
    d.obj (root ++ q) = some o ∧ relOf q = k ∧ Observed d root files k o e
  covers : ∀ q o, q ≠ [] → Unhidden ps [] q → d.obj (root ++ q) = some o → Recordable o →
    relOf q ∈ s.entries

/-- `scan_folder` on a tree. -/
theorem exec_scanFolder (hT : d.Tree) {m : UInt32} (hroot : d.obj root = some (.dir m))
    (hps : HasPatterns d root ps) (cache : ScanCache) :
    ∃ st', exec (scanFolder root) ⟨d, cache, ∅, ∅⟩ = (.ok (), st') ∧
      Scans d root ps cache.files [] (· ≠ []) ⟨d, cache, ∅, ∅⟩ st' := by
  have hload : exec (ScanM.fs (loadIgnorePatterns root)) (⟨d, cache, ∅, ∅⟩ : ScanState Disk) =
      (.ok ps, ⟨d, cache, ∅, ∅⟩) := by
    rw [ScanM.fs, exec_zoom, exec_loadIgnorePatterns, hps]
  have hlimit : FileSystem.depthLimit d = d.depth + 2 := rfl
  have hroot' : d.obj (root ++ []) = some (.dir m) := by rwa [List.append_nil]
  have hknown : CacheKnown d root cache.files cache := fun _ _ hc ↦ .inl hc
  have hdepth : d.depth < d.depth + 2 + (root ++ []).length := by omega
  have hworld : (⟨d, cache, ∅, ∅⟩ : ScanState Disk).world = d := rfl
  obtain ⟨st', hscan, hscans⟩ := exec_scanDir hT ps hworld hknown hroot' hdepth
  rw [List.append_nil] at hscan
  refine ⟨st', ?_, hscans⟩
  rw [scanFolder, exec_bind_ok hload, exec_get_bind]
  dsimp only
  rw [hlimit]
  exact hscan

omit [Blake3] in
theorem exec_lookScan {α : Type} (m : ScanM Disk α) (v : Disk × ScanCache) :
    exec (LookM.scan m) v =
      ((exec m ⟨v.1, v.2, ∅, ∅⟩).1.map fun a ↦ (a, (exec m ⟨v.1, v.2, ∅, ∅⟩).2),
        (exec m ⟨v.1, v.2, ∅, ∅⟩).2.world, (exec m ⟨v.1, v.2, ∅, ∅⟩).2.cache) := rfl

/-- A survey of a tree succeeds and changes nothing but the cache. -/
theorem exec_survey (hT : d.Tree) {m : UInt32} (hroot : d.obj root = some (.dir m))
    (hps : HasPatterns d root ps) (cache : ScanCache) :
    ∃ s cache', exec (survey root) (d, cache) = (.ok s, d, cache') ∧
      Surveyed d root ps cache.files s := by
  have hload : exec (LookM.fs (loadIgnorePatterns root)) (d, cache) = (.ok ps, d, cache) := by
    rw [LookM.fs, exec_zoom, exec_loadIgnorePatterns, hps]
  obtain ⟨st', hfolder, hscans⟩ := exec_scanFolder hT hroot hps cache
  have hworld : st'.world = d := hscans.world_eq
  have hlook : exec (LookM.scan (scanFolder root)) (d, cache) = (.ok ((), st'), d, st'.cache) := by
    rw [exec_lookScan]
    dsimp only
    rw [hfolder, hworld]
    rfl
  refine ⟨⟨ps, st'.entries, st'.unstable⟩, st'.cache, ?_, rfl, hscans.unstable_eq, fun k e he ↦ ?_,
    fun q o hq hu ho hr ↦ hscans.covers q o hq hu ho hr⟩
  · rw [survey, exec_bind_ok hload, exec_bind_ok hlook, exec_pure]
  · rcases hscans.found k e he with hnone | ⟨q, o, hq, hu, ho, hk, hobs⟩
    · exact absurd hnone (by simp)
    · exact ⟨q, o, hq, hu, ho, hk, hobs⟩

/-- A rescan of a tree succeeds and records what a survey found. -/
theorem exec_rescan_tree (hT : n.world.Tree) {m : UInt32}
    (hroot : n.world.obj n.folder.root = some (.dir m)) (hps : HasPatterns n.world n.folder.root ps) :
    ∃ s n', Surveyed n.world n.folder.root ps n.folder.scanCache.files s ∧
      exec rescan n = (.ok (s.record (n.folder.toReplica, [])).2, n') ∧
      n'.folder.toReplica = (s.record (n.folder.toReplica, [])).1 := by
  obtain ⟨s, cache', hsurvey, hs⟩ := exec_survey hT hroot hps n.folder.scanCache
  have hspec := exec_rescan n
  have hview : exec (survey n.folder.root) n.view = (.ok s, n.world, cache') := hsurvey
  rw [hview] at hspec
  obtain ⟨w, store, cache, hexec⟩ := hspec
  exact ⟨s, _, hs, hexec, rfl⟩

omit [Blake3] in
/-- What a survey found is in the index afterwards, up to its version. -/
theorem Survey.getElem?_record {s : Survey} {k : Str} {e : Entry} (h : s.entries[k]? = some e)
    (st : Recorded) : ∃ e', (s.record st).1.entries[k]? = some e' ∧ sameObservedState e' e := by
  obtain ⟨e', he', hsame⟩ := getElem?_recordLive h st
  refine ⟨e', ?_, hsame⟩
  have hseen : k ∈ s.seen := by
    rw [Survey.seen, OrdMap.mem_foldl_insert]
    refine .inr (ExtTreeMap.mem_keys.mpr (ExtTreeMap.mem_iff_isSome_getElem?.mpr ?_))
    rw [h]
    rfl
  exact (getElem?_recordDeleted_of_seen hseen _).trans he'

end Tree

end Lilsync
