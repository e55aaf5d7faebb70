import Lilsync.Disk
import Lilsync.Scan.Relative

/-!
# Scanning a tree

On a tree a scan finds every object that can be recorded and is not hidden: neither
its own relative path nor that of a directory on the way is ignored.  Nothing else
is found, no file is unstable, and nothing on the disk changes.
-/

namespace Lilsync

open Std (ExtTreeMap)
open Lilsync.Lib Lilsync.Lib.Proc Lilsync.Lib.Posix Lilsync.Posix

/-! ## Observing objects -/

/-- A scan records links to such targets. -/
def SupportedTarget (target : Str) : Prop :=
  Utf8.valid target ∧ validateSymlinkTarget target = .ok ()

/-- A scan records such objects. -/
def Recordable : Obj → Prop
  | .dir _ => True
  | .file _ => True
  | .symlink target => SupportedTarget target
  | .special => False

section Observing

variable [Blake3] {d : Disk} {root names : PathBuf} {i : Nat} {st : ScanState Disk}

/-- What the cache learns about a file. -/
def cachedOf (d : Disk) (i : Nat) : CachedFile :=
  ⟨(d.inode i).content.length, (d.inode i).mtime, Blake3.digest (d.inode i).content⟩

/-- The file was changed within the last second. -/
def RecentlyModified (d : Disk) (i : Nat) : Prop :=
  (d.inode i).mtime ≤ d.time ∧ d.time - (d.inode i).mtime < fileStableAge

instance (d : Disk) (i : Nat) : Decidable (RecentlyModified d i) :=
  inferInstanceAs (Decidable (_ ∧ _))

/-- What the cache may hold for a relative path: what it held at first, or what it
has learned about a file there. -/
def Known (d : Disk) (root : PathBuf) (files : BTreeMap Str CachedFile) (k : Str)
    (c : CachedFile) : Prop :=
  files[k]? = some c ∨
    ∃ names j, d.obj (root ++ names) = some (.file j) ∧ relOf names = k ∧ c = cachedOf d j

/-- A hash the scan may record for a file. -/
def HashOf (d : Disk) (root : PathBuf) (files : BTreeMap Str CachedFile) (k : Str) (i : Nat)
    (hash : Hash) : Prop :=
  ∃ c, Known d root files k c ∧ c.size = (d.inode i).content.length ∧
    c.mtime = (d.inode i).mtime ∧ c.contentHash = hash

/-- The entry a scan records for an object. -/
inductive Observed (d : Disk) (root : PathBuf) (files : BTreeMap Str CachedFile) (k : Str) :
    Obj → Entry → Prop where
  | dir (m : UInt32) :
    Observed d root files k (.dir m) (liveEntry k .dir none none 0 (some (0o040000 ||| m)))
  | file (i : Nat) (hash : Hash) : HashOf d root files k i hash →
    Observed d root files k (.file i) (liveEntry k .file (some hash) none
      (d.inode i).content.length (some (0o100000 ||| (d.inode i).mode)))
  | symlink (target : Str) : SupportedTarget target →
    Observed d root files k (.symlink target) (liveEntry k .symlink none (some target) 0 none)

omit [Blake3] in
theorem exec_fs_query {α : Type} (f : Disk → Except Errno α) (st : ScanState Disk) :
    exec (ScanM.fs (Posix.query f)) st = ((f st.world).mapError ofErrno, st) := rfl

omit [Blake3] in
theorem exec_symlinkMetadata (hT : d.Tree) {p : PathBuf} {o : Obj} (h : d.obj p = some o) :
    exec (FileSystem.symlinkMetadata p) d = (.ok (metadataOf d o), d) := by
  change (((d.lstat p).map (metadataOf d)).mapError ofErrno, d) = _
  rw [hT.lstat h]
  rfl

omit [Blake3] in
theorem exec_isRecentlyModified (d : Disk) (i : Nat) :
    exec (isRecentlyModified (metadataOf d (.file i))) d =
      (.ok (decide (RecentlyModified d i)), d) := by
  have hdecide : decide (RecentlyModified d i) = (decide ((d.inode i).mtime ≤ d.time) &&
      decide (d.time - (d.inode i).mtime < fileStableAge)) := Bool.decide_and ..
  rw [hdecide]
  rfl

omit [Blake3] in
theorem exec_read (hT : d.Tree) {p : PathBuf} (h : d.obj p = some (.file i)) :
    exec (FileSystem.read p) d = (.ok (d.inode i).content, d) := by
  change ((readFile d p).mapError ofErrno, d) = _
  rw [readFile, hT.stat h (by simp)]
  rfl

omit [Blake3] in
theorem exec_readSupportedSymlink (hT : d.Tree) {p : PathBuf} {target : Str}
    (h : d.obj p = some (.symlink target)) : ∃ found, exec (readSupportedSymlink p) d =
      (.ok found, d) ∧ (SupportedTarget target ∧ found = some target ∨
        ¬ SupportedTarget target ∧ found = none) := by
  have hread : exec (FileSystem.readLink p) d = (.ok target, d) := by
    change ((Posix.readLink d p).mapError ofErrno, d) = _
    rw [Posix.readLink, hT.lstat h]
    rfl
  rw [readSupportedSymlink, exec_bind_ok hread]
  by_cases hv : Utf8.valid target
  · simp only [hv, Bool.not_true, Bool.false_eq_true, ↓reduceIte]
    cases ht : validateSymlinkTarget target with
    | ok u => exact ⟨some target, rfl, .inl ⟨⟨hv, ht⟩, rfl⟩⟩
    | error err =>
      refine ⟨none, rfl, .inr ⟨fun hs ↦ ?_, rfl⟩⟩
      rw [hs.2] at ht
      cases ht
  · simp only [hv, Bool.not_false, ↓reduceIte, exec_pure]
    exact ⟨none, rfl, .inr ⟨fun hs ↦ hv hs.1, rfl⟩⟩

/-- A file that nobody changes is observed at the first attempt. -/
theorem exec_observeFileWhenStable (hT : d.Tree) {p : PathBuf} (h : d.obj p = some (.file i))
    {waitForRecent : Bool} (hw : waitForRecent → ¬ RecentlyModified d i) :
    exec (observeFileWhenStable p (metadataOf d (.file i)) waitForRecent) d =
      (.ok (some ⟨(cachedOf d i).contentHash, (d.inode i).content.length,
        some (0o100000 ||| (d.inode i).mode)⟩), d) := by
  have hhash : exec (hashFile p) d = (.ok (cachedOf d i).contentHash, d) := by
    rw [hashFile, exec_bind_ok (exec_read hT h)]
    rfl
  have hmeta := exec_symlinkMetadata hT h
  have hfile : (metadataOf d (.file i)).isFile = true := rfl
  have hsame : sameFileObservation (metadataOf d (.file i)) (metadataOf d (.file i)) = true := by
    simp [sameFileObservation]
  rw [observeFileWhenStable, fileStabilityAttempts, observeFileAttempts]
  cases waitForRecent with
  | false =>
    simp only [Bool.false_eq_true, ↓reduceIte, exec_pure_bind]
    rw [exec_bind_ok hhash, exec_bind_ok hmeta]
    simp only [hfile, hsame, Bool.not_true, Bool.false_eq_true, ↓reduceIte, exec_pure]
    rfl
  | true =>
    rw [if_pos rfl, exec_bind_ok (exec_isRecentlyModified d i), decide_eq_false (hw rfl)]
    simp only [Bool.false_eq_true, ↓reduceIte]
    rw [exec_bind_ok hhash, exec_bind_ok hmeta]
    simp only [hfile, hsame, Bool.not_true, Bool.false_eq_true, ↓reduceIte, exec_pure]
    rfl

/-- A cache that knows only what is or was there. -/
def CacheKnown (d : Disk) (root : PathBuf) (files : BTreeMap Str CachedFile) (cache : ScanCache) :
    Prop :=
  ∀ (k : Str) (c : CachedFile), cache.files[k]? = some c → Known d root files k c

omit [Blake3] in
/-- A lookup changes nothing and finds what is in the cache. -/
theorem exec_lookupCache (k : Str) (i : Nat) (st : ScanState Disk) :
    ∃ found, exec (lookupCache k (metadataOf st.world (.file i))) st = (.ok found, st) ∧
      ∀ hash, found = some hash → ∃ c, st.cache.files[k]? = some c ∧
        c.size = (st.world.inode i).content.length ∧ c.mtime = (st.world.inode i).mtime ∧
        c.contentHash = hash := by
  have hrecent : exec (ScanM.fs (isRecentlyModified (metadataOf st.world (.file i)))) st =
      (.ok (decide (RecentlyModified st.world i)), st) := by
    change ((exec (isRecentlyModified _) st.world).1,
      { st with world := (exec (isRecentlyModified _) st.world).2 }) = _
    rw [exec_isRecentlyModified]
  rw [lookupCache, exec_bind_ok hrecent]
  by_cases hr : RecentlyModified st.world i
  · simp only [hr, decide_true, ↓reduceIte]
    exact ⟨none, rfl, fun hash h ↦ by cases h⟩
  · simp only [hr, decide_false, Bool.false_eq_true, ↓reduceIte]
    rw [exec_get_bind, exec_pure]
    refine ⟨_, rfl, fun hash h ↦ ?_⟩
    cases hc : st.cache.files[k]? with
    | none => simp [hc] at h
    | some c =>
      rw [hc] at h
      change (if c.size = (st.world.inode i).content.length ∧ c.mtime = (st.world.inode i).mtime
        then some c.contentHash else none) = some hash at h
      split at h
      · next heq => exact ⟨c, rfl, heq.1, heq.2, Option.some.inj h⟩
      · cases h

/-- Observing a file gives one of the hashes it may have, from the cache or from its
content. -/
theorem exec_observeFileCached (hT : d.Tree) (hd : st.world = d)
    (h : d.obj (root ++ names) = some (.file i)) {files : BTreeMap Str CachedFile}
    (hcache : CacheKnown d root files st.cache) (waitForRecent : Bool)
    (hw : waitForRecent → ¬ RecentlyModified d i) :
    ∃ cache hash, exec (observeFileCached (root ++ names) (relOf names) (metadataOf d (.file i))
        waitForRecent) st =
        (.ok (some ⟨hash, (d.inode i).content.length, some (0o100000 ||| (d.inode i).mode)⟩),
          { st with cache }) ∧
      CacheKnown d root files cache ∧ HashOf d root files (relOf names) i hash := by
  subst hd
  obtain ⟨found, hlookup, hfound⟩ := exec_lookupCache (relOf names) i st
  rw [observeFileCached, exec_bind_ok hlookup]
  cases found with
  | some hash =>
    obtain ⟨c, hc, hsize, hmtime, hhash⟩ := hfound hash rfl
    exact ⟨st.cache, hash, rfl, hcache, c, hcache _ c hc, hsize, hmtime, hhash⟩
  | none =>
    have hobserve : exec (ScanM.fs (observeFileWhenStable (root ++ names)
        (metadataOf st.world (.file i)) waitForRecent)) st =
        (.ok (some ⟨(cachedOf st.world i).contentHash, (st.world.inode i).content.length,
          some (0o100000 ||| (st.world.inode i).mode)⟩), st) := by
      change ((exec (observeFileWhenStable _ _ _) st.world).1,
        { st with world := (exec (observeFileWhenStable _ _ _) st.world).2 }) = _
      rw [exec_observeFileWhenStable hT h hw]
    have hmeta : exec (ScanM.fs (attempt (FileSystem.symlinkMetadata (root ++ names)))) st =
        (.ok (.ok (metadataOf st.world (.file i))), st) := by
      change (Except.ok (exec (FileSystem.symlinkMetadata (root ++ names)) st.world).1,
        { st with world := (exec (FileSystem.symlinkMetadata (root ++ names)) st.world).2 }) = _
      rw [exec_symlinkMetadata hT h]
    dsimp only
    rw [exec_bind_ok hobserve]
    dsimp only
    rw [exec_bind_ok hmeta]
    refine ⟨_, _, rfl, ?_, cachedOf st.world i, .inr ⟨names, i, h, rfl, rfl⟩, rfl, rfl, rfl⟩
    intro k c hc
    change (st.cache.files.insert (relOf names) (cachedOf st.world i))[k]? = some c at hc
    rw [OrdMap.getElem?_insert_eq] at hc
    split at hc
    · next hk => exact .inr ⟨names, i, h, hk, (Option.some.inj hc).symm⟩
    · exact hcache k c hc

end Observing

/-! ## The traversal -/

section Traversal

variable [Blake3] {d : Disk} {root a b : PathBuf} {ps : List IgnorePattern}
  {files : BTreeMap Str CachedFile} {B B' : PathBuf → Prop} {st st' st'' : ScanState Disk}

/-- Nothing on the way from the directory `a` to what has the names `b` below it is
ignored. -/
def Unhidden (ps : List IgnorePattern) (a b : PathBuf) : Prop :=
  ∀ c, c <+: b → c ≠ [] → shouldIgnore (relOf (a ++ c)) ps = false

/-- From the directory `a` the scan has found the unhidden objects with names in `B`
below it. -/
structure Scans (d : Disk) (root : PathBuf) (ps : List IgnorePattern)
    (files : BTreeMap Str CachedFile) (a : PathBuf) (B : PathBuf → Prop)
    (st st' : ScanState Disk) : Prop where
  world_eq : st'.world = st.world
  unstable_eq : st'.unstable = st.unstable
  cache : CacheKnown d root files st'.cache
  found : ∀ (k : Str) (e : Entry), st'.entries[k]? = some e → st.entries[k]? = some e ∨
    ∃ b o, B b ∧ Unhidden ps a b ∧ d.obj (root ++ (a ++ b)) = some o ∧ relOf (a ++ b) = k ∧
      Observed d root files k o e
  covers : ∀ b o, B b → Unhidden ps a b → d.obj (root ++ (a ++ b)) = some o → Recordable o →
    relOf (a ++ b) ∈ st'.entries
  mono : ∀ k, k ∈ st.entries → k ∈ st'.entries

theorem Scans.refl (hcache : CacheKnown d root files st.cache)
    (hB : ∀ b o, B b → Unhidden ps a b → d.obj (root ++ (a ++ b)) = some o → ¬ Recordable o) :
    Scans d root ps files a B st st where
  world_eq := rfl
  unstable_eq := rfl
  cache := hcache
  found _ _ h := .inl h
  covers b o hb hu ho hr := absurd hr (hB b o hb hu ho)
  mono _ h := h

theorem Scans.trans (h : Scans d root ps files a B st st') (h' : Scans d root ps files a B' st' st'') :
    Scans d root ps files a (fun b ↦ B b ∨ B' b) st st'' where
  world_eq := h'.world_eq.trans h.world_eq
  unstable_eq := h'.unstable_eq.trans h.unstable_eq
  cache := h'.cache
  found k e he := by
    rcases h'.found k e he with he | ⟨b, o, hb, hrest⟩
    · rcases h.found k e he with he | ⟨b, o, hb, hrest⟩
      · exact .inl he
      · exact .inr ⟨b, o, .inl hb, hrest⟩
    · exact .inr ⟨b, o, .inr hb, hrest⟩
  covers b o hb hu ho hr := by
    rcases hb with hb | hb
    · exact h'.mono _ (h.covers b o hb hu ho hr)
    · exact h'.covers b o hb hu ho hr
  mono k hk := h'.mono k (h.mono k hk)

/-- Names without recordable objects do not matter. -/
theorem Scans.widen (h : Scans d root ps files a B st st') (hB : ∀ b, B b → B' b)
    (hB' : ∀ b o, B' b → d.obj (root ++ (a ++ b)) = some o → Recordable o → B b) :
    Scans d root ps files a B' st st' where
  world_eq := h.world_eq
  unstable_eq := h.unstable_eq
  cache := h.cache
  found k e he := by
    rcases h.found k e he with he | ⟨b, o, hb, hrest⟩
    · exact .inl he
    · exact .inr ⟨b, o, hB b hb, hrest⟩
  covers b o hb hu ho hr := h.covers b o (hB' b o hb ho hr) hu ho hr
  mono := h.mono

omit [Blake3] in
theorem unhidden_cons_iff {n : Str} : Unhidden ps a (n :: b) ↔
    shouldIgnore (relOf (a ++ [n])) ps = false ∧ Unhidden ps (a ++ [n]) b := by
  constructor
  · intro h
    refine ⟨h [n] (by simp) (by simp), fun c hc hne ↦ ?_⟩
    rw [List.append_assoc, List.singleton_append]
    exact h (n :: c) (List.cons_prefix_cons.mpr ⟨rfl, hc⟩) (by simp)
  · rintro ⟨hn, hb⟩ c hc hne
    obtain ⟨n', c, rfl⟩ := List.exists_cons_of_ne_nil hne
    obtain ⟨rfl, hcb⟩ := List.cons_prefix_cons.mp hc
    by_cases hnil : c = []
    · rw [hnil]
      exact hn
    · have hcb := hb c hcb hnil
      rwa [List.append_assoc, List.singleton_append] at hcb

/-- A scan of a directory, seen from its parent. -/
theorem Scans.shift {n : Str} (h : Scans d root ps files (a ++ [n]) B st st')
    (hu : shouldIgnore (relOf (a ++ [n])) ps = false) :
    Scans d root ps files a (fun b ↦ ∃ c, B c ∧ b = n :: c) st st' where
  world_eq := h.world_eq
  unstable_eq := h.unstable_eq
  cache := h.cache
  found k e he := by
    rcases h.found k e he with he | ⟨c, o, hc, hunhidden, ho, hk, hobs⟩
    · exact .inl he
    · rw [List.append_assoc, List.singleton_append] at ho hk
      exact .inr ⟨n :: c, o, ⟨c, hc, rfl⟩, unhidden_cons_iff.mpr ⟨hu, hunhidden⟩, ho, hk, hobs⟩
  covers := by
    rintro _ o ⟨c, hc, rfl⟩ hunhidden ho hr
    have hcovers := h.covers c o hc (unhidden_cons_iff.mp hunhidden).2
    rw [List.append_assoc, List.singleton_append] at hcovers
    exact hcovers ho hr
  mono := h.mono

/-- An entry was found at a single object. -/
theorem scans_insertEntry {n : Str} {o : Obj} {e : Entry}
    (hcache : CacheKnown d root files st.cache) (ho : d.obj (root ++ (a ++ [n])) = some o)
    (hu : shouldIgnore (relOf (a ++ [n])) ps = false)
    (he : Observed d root files (relOf (a ++ [n])) o e) (hpath : e.path = relOf (a ++ [n])) :
    Scans d root ps files a (· = [n]) st { st with entries := st.entries.insert e.path e } where
  world_eq := rfl
  unstable_eq := rfl
  cache := hcache
  found k e' he' := by
    change (st.entries.insert e.path e)[k]? = some e' at he'
    rw [OrdMap.getElem?_insert_eq] at he'
    split at he'
    · next hk =>
      obtain rfl := Option.some.inj he'
      obtain rfl := hpath.symm.trans hk
      refine .inr ⟨[n], o, rfl, fun c hc hne ↦ ?_, ho, rfl, he⟩
      obtain rfl := (List.prefix_concat_iff.mp (List.nil_append [n] ▸ hc)).resolve_right
        fun h ↦ hne (List.prefix_nil.mp h)
      exact hu
    · exact .inl he'
  covers b o' hb _ _ _ := by
    subst hb
    exact ExtTreeMap.mem_insert.mpr (.inl (by rw [hpath]; exact Std.ReflCmp.compare_self))
  mono k hk := ExtTreeMap.mem_insert.mpr (.inr hk)

/-- One turn of the loop of `scan_dir`. -/
theorem exec_scanChild (hT : d.Tree) (ps : List IgnorePattern) (hd : st.world = d)
    (hcache : CacheKnown d root files st.cache) {n : Str} {o : Obj}
    (ho : d.obj (root ++ (a ++ [n])) = some o) {descend : PathBuf → ScanM Disk Unit}
    (hdescend : ∀ m, o = .dir m → ∀ st, st.world = d → CacheKnown d root files st.cache →
      ∃ st', exec (descend (root ++ (a ++ [n]))) st = (.ok (), st') ∧
        Scans d root ps files (a ++ [n]) (· ≠ []) st st') :
    ∃ st', exec (scanChild root ps descend (root ++ (a ++ [n]))) st = (.ok (), st') ∧
      Scans d root ps files a (fun b ↦ ∃ c, b = n :: c) st st' := by
  have hrel : exec (scanChild.liftExcept (relativePath root (root ++ (a ++ [n])))) st =
      (.ok (relOf (a ++ [n])), st) := by
    rw [relativePath_append]
    rfl
  -- below what is not a directory there is nothing
  have hleaf : (∀ m, o ≠ .dir m) → ∀ b o', (∃ c, b = n :: c) →
      d.obj (root ++ (a ++ b)) = some o' → b = [n] := by
    rintro hnot _ o' ⟨c, rfl⟩ ho'
    by_contra hne
    obtain ⟨m, hm⟩ := hT.isDirAt (q := root ++ (a ++ [n])) ho' ⟨c, by simp⟩ (by simpa using Ne.symm hne)
    exact hnot m (Option.some.inj (ho.symm.trans hm))
  rw [scanChild, exec_bind_ok hrel]
  by_cases hu : shouldIgnore (relOf (a ++ [n])) ps = true
  · rw [if_pos hu, exec_pure]
    refine ⟨st, rfl, .refl hcache ?_⟩
    rintro _ o' ⟨c, rfl⟩ hunhidden - -
    rw [(unhidden_cons_iff.mp hunhidden).1] at hu
    cases hu
  · have hmeta : exec (ScanM.fs (FileSystem.symlinkMetadata (root ++ (a ++ [n])))) st =
        (.ok (metadataOf d o), st) := by
      subst hd
      change ((exec (FileSystem.symlinkMetadata _) st.world).1,
        { st with world := (exec (FileSystem.symlinkMetadata _) st.world).2 }) = _
      rw [exec_symlinkMetadata hT ho]
    rw [if_neg hu, exec_bind_ok hmeta]
    have hu := Bool.eq_false_of_not_eq_true hu
    cases o with
    | symlink target =>
      obtain ⟨found, hread, hfound⟩ := exec_readSupportedSymlink hT ho
      have hread' : exec (ScanM.fs (readSupportedSymlink (root ++ (a ++ [n])))) st =
          (.ok found, st) := by
        subst hd
        change ((exec (readSupportedSymlink _) st.world).1,
          { st with world := (exec (readSupportedSymlink _) st.world).2 }) = _
        rw [hread]
      have hlink : (metadataOf d (.symlink target)).isSymlink = true := rfl
      rw [if_pos hlink, exec_bind_ok hread']
      rcases hfound with ⟨hs, rfl⟩ | ⟨hs, rfl⟩
      · refine ⟨_, rfl, (scans_insertEntry hcache ho hu (.symlink target hs) rfl).widen ?_ ?_⟩
        · rintro _ rfl
          exact ⟨[], rfl⟩
        · exact fun b o' hb ho' _ ↦ hleaf (by simp) b o' hb ho'
      · refine ⟨st, rfl, .refl hcache fun b o' hb _ ho' hr ↦ ?_⟩
        obtain rfl := hleaf (by simp) b o' hb ho'
        obtain rfl := Option.some.inj (ho.symm.trans ho')
        exact hs hr
    | dir m =>
      have hinsert := scans_insertEntry hcache ho hu (.dir m) rfl
      obtain ⟨st', hdesc, hscans⟩ := hdescend m rfl _ (hinsert.world_eq.trans hd) hinsert.cache
      refine ⟨st', ?_, (hinsert.trans (hscans.shift hu)).widen ?_ ?_⟩
      · exact hdesc
      · rintro _ (rfl | ⟨c, -, rfl⟩)
        · exact ⟨[], rfl⟩
        · exact ⟨c, rfl⟩
      · rintro _ o' ⟨c, rfl⟩ - -
        by_cases hc : c = []
        · exact .inl (by rw [hc])
        · exact .inr ⟨c, hc, rfl⟩
    | file i =>
      obtain ⟨cache, hash, hobserve, hknown, hhash⟩ :=
        exec_observeFileCached hT hd ho hcache false (by simp)
      have hknown' : CacheKnown d root files ({ st with cache } : ScanState Disk).cache := hknown
      have hfile := scans_insertEntry hknown' ho hu (.file i hash hhash) rfl
      refine ⟨{ st with cache, entries := st.entries.insert _ _ }, ?_, Scans.widen
        ⟨hfile.world_eq, hfile.unstable_eq, hfile.cache, hfile.found, hfile.covers, hfile.mono⟩ ?_ ?_⟩
      · have hlink : (metadataOf d (.file i)).isSymlink = false := rfl
        have hdir : (metadataOf d (.file i)).isDir = false := rfl
        have hfile : (metadataOf d (.file i)).isFile = true := rfl
        simp only [hlink, hdir, hfile, Bool.false_eq_true, ↓reduceIte]
        rw [exec_bind_ok hobserve]
        rfl
      · rintro _ rfl
        exact ⟨[], rfl⟩
      · exact fun b o' hb ho' _ ↦ hleaf (by simp) b o' hb ho'
    | special =>
      refine ⟨st, rfl, .refl hcache fun b o' hb _ ho' hr ↦ ?_⟩
      obtain rfl := hleaf (by simp) b o' hb ho'
      obtain rfl := Option.some.inj (ho.symm.trans ho')
      exact hr

/-- The loop of `scan_dir`, over paths of objects in the directory. -/
theorem exec_forM_scanChild (hT : d.Tree) (descend : PathBuf → ScanM Disk Unit)
    (hdescend : ∀ n m, d.obj (root ++ (a ++ [n])) = some (.dir m) → ∀ st, st.world = d →
      CacheKnown d root files st.cache →
      ∃ st', exec (descend (root ++ (a ++ [n]))) st = (.ok (), st') ∧
        Scans d root ps files (a ++ [n]) (· ≠ []) st st')
    {children : List PathBuf}
    (hchildren : ∀ path ∈ children, ∃ n o, path = root ++ (a ++ [n]) ∧ d.obj path = some o)
    (hd : st.world = d) (hcache : CacheKnown d root files st.cache) :
    ∃ st', exec (children.forM (scanChild root ps descend)) st = (.ok (), st') ∧
      Scans d root ps files a (fun b ↦ ∃ n c, root ++ (a ++ [n]) ∈ children ∧ b = n :: c) st st' := by
  induction children generalizing st with
  | nil =>
    refine ⟨st, rfl, .refl hcache ?_⟩
    rintro b o ⟨n, c, hmem, -⟩
    cases hmem
  | cons path children ih =>
    obtain ⟨n, o, rfl, ho⟩ := hchildren path List.mem_cons_self
    obtain ⟨st₁, hchild, hscan⟩ := exec_scanChild hT ps hd hcache ho fun m hm ↦
      hdescend n m (hm ▸ ho)
    obtain ⟨st₂, hrest, hscans⟩ := ih (fun path hp ↦ hchildren path (List.mem_cons_of_mem _ hp))
      (hscan.world_eq.trans hd) hscan.cache
    refine ⟨st₂, ?_, (hscan.trans hscans).widen ?_ ?_⟩
    · exact (exec_bind_ok hchild _).trans hrest
    · rintro b (⟨c, rfl⟩ | ⟨n', c, hmem, rfl⟩)
      · exact ⟨n, c, List.mem_cons_self, rfl⟩
      · exact ⟨n', c, List.mem_cons_of_mem _ hmem, rfl⟩
    · rintro b o' ⟨n', c, hmem, rfl⟩ - -
      rcases List.mem_cons.mp hmem with heq | hmem
      · obtain rfl : n' = n := by simpa using heq
        exact .inl ⟨c, rfl⟩
      · exact .inr ⟨n', c, hmem, rfl⟩

/-- `scan_dir`, for a directory of the folder. -/
theorem exec_scanDir (hT : d.Tree) (ps : List IgnorePattern) (hd : st.world = d)
    (hcache : CacheKnown d root files st.cache) {m : UInt32}
    (ha : d.obj (root ++ a) = some (.dir m)) {depth : Nat}
    (hdepth : d.depth < depth + (root ++ a).length) :
    ∃ st', exec (scanDir root ps depth (root ++ a)) st = (.ok (), st') ∧
      Scans d root ps files a (· ≠ []) st st' := by
  induction depth generalizing a m st with
  | zero =>
    have hle := Disk.length_le_depth ha
    omega
  | succ depth ih =>
    have hread : exec (ScanM.fs (FileSystem.readDir (root ++ a))) st =
        (.ok (d.childNames (root ++ a)), st) := by
      subst hd
      change (((Posix.readDir st.world (root ++ a)).mapError ofErrno), st) = _
      rw [Posix.readDir, hT.find ha (by simp)]
      rfl
    rw [scanDir, exec_bind_ok hread]
    generalize hl : (List.map (fun name ↦ root ++ a ++ [name]) (d.childNames (root ++ a))).insertionSort
      (fun a b ↦ (compare a b).isLE) = children
    have hmem : ∀ path, path ∈ children ↔ ∃ n o, path = root ++ (a ++ [n]) ∧ d.obj path = some o := by
      intro path
      rw [← hl, List.mem_insertionSort, List.mem_map]
      constructor
      · rintro ⟨n, hn, rfl⟩
        obtain ⟨o, ho⟩ := Disk.mem_childNames.mp hn
        exact ⟨n, o, List.append_assoc _ _ _, ho⟩
      · rintro ⟨n, o, rfl, ho⟩
        rw [← List.append_assoc] at ho ⊢
        exact ⟨n, Disk.mem_childNames.mpr ⟨o, ho⟩, rfl⟩
    have hlen (n : Str) : d.depth < depth + (root ++ (a ++ [n])).length := by
      simp only [List.length_append, List.length_singleton] at hdepth ⊢
      omega
    obtain ⟨st', hloop, hscans⟩ := exec_forM_scanChild hT (scanDir root ps depth)
      (fun n _ hn _ hd hcache ↦ ih hd hcache hn (hlen n)) (fun path hp ↦ (hmem path).mp hp) hd hcache
    refine ⟨st', hloop, hscans.widen ?_ ?_⟩
    · rintro _ ⟨n, c, -, rfl⟩
      exact List.cons_ne_nil n c
    · intro b o hb ho _
      obtain ⟨n, c, rfl⟩ := List.exists_cons_of_ne_nil hb
      refine ⟨n, c, (hmem _).mpr ?_, rfl⟩
      by_cases hc : c = []
      · subst hc
        exact ⟨n, o, rfl, ho⟩
      · obtain ⟨m', hm'⟩ := hT.isDirAt (q := root ++ (a ++ [n])) ho ⟨c, by simp⟩ (by simpa using Ne.symm hc)
        exact ⟨n, _, rfl, hm'⟩

end Traversal

end Lilsync
