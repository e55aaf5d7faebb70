import Lilsync.State.Rescan

/-!
# Hidden objects

`scan_dir` does not descend into an ignored directory, while `should_ignore`
judges a path as a whole.  So a scan misses what is not ignored itself but lies in
an ignored directory, and it misses nothing else.
-/

namespace Lilsync

open Lilsync.Lib Lilsync.Lib.Proc Lilsync.Lib.Posix Lilsync.Lib.SlashPath

/-- There is an object with this relative path in the folder. -/
def Present (d : Disk) (root : PathBuf) (k : Str) : Prop :=
  ∃ q o, q ≠ [] ∧ d.obj (root ++ q) = some o ∧ relOf q = k

/-- The folder holds directories and regular files only. -/
def FilesAndDirs (d : Disk) (root : PathBuf) : Prop :=
  ∀ q o, d.obj (root ++ q) = some o → (∃ m, o = .dir m) ∨ ∃ i, o = .file i

/-- No ignored directory holds an object that is not ignored. -/
def NoneHidden (d : Disk) (root : PathBuf) (ps : List IgnorePattern) : Prop :=
  ∀ k, Present d root k → shouldIgnore k ps = false →
    ∀ a, Below slash a k → shouldIgnore a ps = false

/-- A scan finds an object exactly when it is not ignored, and a rescan leaves a live
entry at every object that is not ignored. -/
structure MissesNothing [Blake3] (n : Node Disk) (ps : List IgnorePattern) : Prop where
  scan : ∃ st, exec (scanFolder n.folder.root) ⟨n.world, n.folder.scanCache, ∅, ∅⟩ = (.ok (), st) ∧
    ∀ k, Present n.world n.folder.root k → (k ∈ st.entries ↔ shouldIgnore k ps = false)
  rescan : ∃ changes n', exec rescan n = (.ok changes, n') ∧
    ∀ k, Present n.world n.folder.root k → shouldIgnore k ps = false →
      ∃ e, n'.folder.entries[k]? = some e ∧ e.kind ≠ .tombstone

/-! ## Deciding -/

section Decidable

variable (d : Disk) (root : PathBuf) (ps : List IgnorePattern)

instance : Decidable (FilesAndDirs d root) :=
  decidable_of_iff (∀ p ∈ d.objects.keys, root <+: p →
      (d.obj p).all fun o ↦ o.isDir || o.sameFile o) <| by
    have hkind (o : Obj) : (o.isDir || o.sameFile o) = true ↔ (∃ m, o = .dir m) ∨ ∃ i, o = .file i := by
      cases o <;> simp [Obj.isDir, Obj.sameFile]
    constructor
    · intro h q o ho
      by_cases hne : root ++ q = []
      · rw [hne] at ho
        exact .inl ⟨0o755, (Option.some.inj ho).symm⟩
      · have hall := h _ (Disk.mem_keys_of_obj hne ho) (List.prefix_append _ _)
        rw [ho] at hall
        exact (hkind o).mp hall
    · rintro h p hp ⟨q, rfl⟩
      obtain ⟨o, ho⟩ := Disk.exists_obj_of_mem_keys hp
      rw [ho]
      exact (hkind o).mpr (h q o ho)

instance : Decidable (NoneHidden d root ps) :=
  decidable_of_iff (∀ p ∈ d.objects.keys, root <+: p → p ≠ root →
      shouldIgnore (relOf (p.drop root.length)) ps = false →
      ∀ a ∈ SlashPath.ancestors slash (relOf (p.drop root.length)),
        Below slash a (relOf (p.drop root.length)) → shouldIgnore a ps = false) <| by
    constructor
    · rintro h _ ⟨q, o, hq, ho, rfl⟩ hself a ha
      have hp := h (root ++ q) (Disk.mem_keys_of_obj (by simp [hq]) ho) (List.prefix_append _ _) (by simpa using hq)
      rw [List.drop_left] at hp
      exact hp hself a (mem_ancestors_iff.mpr (.inr ha)) ha
    · rintro h p hp ⟨q, rfl⟩ hne hself a - ha
      obtain ⟨o, ho⟩ := Disk.exists_obj_of_mem_keys hp
      rw [List.drop_left] at hself ha
      exact h _ ⟨q, o, by simpa using hne, ho, rfl⟩ hself a ha

end Decidable

section Hidden

variable {d : Disk} {root q : PathBuf} {o : Obj} {ps : List IgnorePattern}

/-- An object is unhidden when neither its relative path nor one that this lies below
is ignored. -/
theorem unhidden_iff (hq : FileNames q) (hne : q ≠ []) : Unhidden ps [] q ↔
    shouldIgnore (relOf q) ps = false ∧
      ∀ a, Below slash a (relOf q) → shouldIgnore a ps = false := by
  constructor
  · intro h
    refine ⟨h q List.prefix_rfl hne, fun a ha ↦ ?_⟩
    obtain ⟨c, hc, -, hc', rfl⟩ := (below_relOf_iff hq).mp ha
    exact h c hc hc'
  · rintro ⟨hself, habove⟩ c hc hc'
    by_cases heq : c = q
    · rw [heq]
      exact hself
    · exact habove _ ((below_relOf_iff hq).mpr ⟨c, hc, heq, hc', rfl⟩)

theorem FilesAndDirs.recordable (h : FilesAndDirs d root) (ho : d.obj (root ++ q) = some o) :
    Recordable o := by
  rcases h q o ho with ⟨m, rfl⟩ | ⟨i, rfl⟩
  · trivial
  · trivial

theorem Observed.kind_ne [Blake3] {files : BTreeMap Str CachedFile} {k : Str} {e : Entry}
    (h : Observed d root files k o e) : e.kind ≠ .tombstone := by
  cases h with
  | dir m => exact EntryKind.noConfusion
  | file i hash hhash => exact EntryKind.noConfusion
  | symlink target ht => exact EntryKind.noConfusion

/-- What a scan finds is what is not ignored and does not lie in an ignored directory. -/
theorem Scans.mem_entries_iff [Blake3] {files : BTreeMap Str CachedFile} {cache : ScanCache}
    {st : ScanState Disk} (hT : d.Tree) (hfd : FilesAndDirs d root)
    (h : Scans d root ps files [] (· ≠ []) ⟨d, cache, ∅, ∅⟩ st) {k : Str} :
    k ∈ st.entries ↔ Present d root k ∧ shouldIgnore k ps = false ∧
      ∀ a, Below slash a k → shouldIgnore a ps = false := by
  constructor
  · intro hk
    obtain ⟨e, he⟩ := Option.isSome_iff_exists.mp (Std.ExtTreeMap.mem_iff_isSome_getElem?.mp hk)
    rcases h.found k e he with hnone | ⟨q, o, hq, hu, ho, rfl, -⟩
    · simp at hnone
    · have hnames : FileNames q := fun n hn ↦
        hT.fileName _ o ho n (List.mem_append_right _ hn)
      exact ⟨⟨q, o, hq, ho, rfl⟩, (unhidden_iff hnames hq).mp hu⟩
  · rintro ⟨⟨q, o, hq, ho, rfl⟩, hu⟩
    have hnames : FileNames q := fun n hn ↦ hT.fileName _ o ho n (List.mem_append_right _ hn)
    exact h.covers q o hq ((unhidden_iff hnames hq).mpr hu) ho (hfd.recordable ho)

end Hidden

/-- The folder of the documentation's example. -/
def keepDisk (patterns : Str) : Disk :=
  Disk.of
    [([lit "r"], .dir 0o755), ([lit "r", lit ".nolil"], .file 0),
      ([lit "r", lit "build"], .dir 0o755), ([lit "r", lit "build", lit "keep.txt"], .file 1)]
    [(0, ⟨patterns, 0o644, 0⟩), (1, ⟨lit "x", 0o644, 0⟩)]

section Misses

variable [Blake3] {n : Node Disk} {ps : List IgnorePattern}

/-- A scan of a folder of files and directories with these patterns, and what it finds. -/
theorem exists_scan (hT : n.world.Tree) (hroot : n.world.IsDirAt n.folder.root)
    (hfd : FilesAndDirs n.world n.folder.root) (hps : HasPatterns n.world n.folder.root ps) :
    ∃ st, exec (scanFolder n.folder.root) ⟨n.world, n.folder.scanCache, ∅, ∅⟩ = (.ok (), st) ∧
      ∀ k, k ∈ st.entries ↔ Present n.world n.folder.root k ∧ shouldIgnore k ps = false ∧
        ∀ a, Below slash a k → shouldIgnore a ps = false := by
  obtain ⟨m, hm⟩ := hroot
  obtain ⟨st, hscan, hscans⟩ := exec_scanFolder hT hm hps n.folder.scanCache
  exact ⟨st, hscan, fun k ↦ hscans.mem_entries_iff hT hfd⟩

/-- A scan of a folder of files and directories finds exactly what is not ignored, and
a rescan buries nothing of it, if and only if no ignored directory holds an object that
is not ignored. -/
theorem missesNothing_iff_noneHidden (n : Node Disk) (ps : List IgnorePattern)
    (hT : n.world.Tree) (hroot : n.world.IsDirAt n.folder.root)
    (hfd : FilesAndDirs n.world n.folder.root) (hps : HasPatterns n.world n.folder.root ps) :
    MissesNothing n ps ↔ NoneHidden n.world n.folder.root ps := by
  obtain ⟨st, hscan, hmem⟩ := exists_scan hT hroot hfd hps
  constructor
  · rintro ⟨⟨st', hscan', hfound⟩, -⟩ k hk hself
    obtain rfl : st = st' := (Prod.ext_iff.mp (hscan.symm.trans hscan')).2
    exact ((hmem k).mp ((hfound k hk).mpr hself)).2.2
  · intro hnone
    refine ⟨⟨st, hscan, fun k hk ↦ ?_⟩, ?_⟩
    · constructor
      · exact fun h ↦ ((hmem k).mp h).2.1
      · exact fun hself ↦ (hmem k).mpr ⟨hk, hself, hnone k hk hself⟩
    · obtain ⟨m, hm⟩ := hroot
      obtain ⟨s, n', hs, hrescan, hn'⟩ := exec_rescan_tree hT hm hps
      refine ⟨_, n', hrescan, fun k hk hself ↦ ?_⟩
      have habove := hnone k hk hself
      obtain ⟨q, o, hq, ho, rfl⟩ := hk
      have hnames : FileNames q := fun x hx ↦ hT.fileName _ o ho x (List.mem_append_right _ hx)
      have hu := (unhidden_iff hnames hq).mpr ⟨hself, habove⟩
      obtain ⟨e, he⟩ := Option.isSome_iff_exists.mp <|
        Std.ExtTreeMap.mem_iff_isSome_getElem?.mp (hs.covers q o hq hu ho (hfd.recordable ho))
      obtain ⟨-, o', -, -, -, -, hobs⟩ := hs.found _ e he
      obtain ⟨e', he', hsame⟩ := Survey.getElem?_record he (n.folder.toReplica, [])
      refine ⟨e', by rw [hn']; exact he', ?_⟩
      have hkind : e'.kind = e.kind := by rw [← sameObservedState_iff.mp hsame]
      rw [hkind]
      exact hobs.kind_ne

end Misses

/-- Without the second pattern nothing asks for the file in the ignored directory. -/
theorem missesNothing_iff_noneHidden_build : letI : Blake3 := Blake3.reference
    MissesNothing (Node.blank [lit "r"] (lit "A") (keepDisk (lit "build/\n")))
      [⟨lit "build", false, true, false, false⟩] := by
  let _ : Blake3 := Blake3.reference
  have hT : (keepDisk (lit "build/\n")).Tree := by decide +kernel
  exact (missesNothing_iff_noneHidden _ _ hT (by decide +kernel) (by decide +kernel)
    (by decide +kernel)).mpr (by decide +kernel)

/-- The patterns of the documentation's example: `build/` is ignored and
`!build/keep.txt` asks for a file in it. -/
def keepPatterns : List IgnorePattern :=
  [⟨lit "build", false, true, false, false⟩, ⟨lit "build/keep.txt", true, false, false, true⟩]

/-- The file the patterns ask for is not ignored, and a scan does not find it. -/
theorem not_forall_missesNothing : ¬ ∀ (_ : Blake3) (n : Node Disk) (ps : List IgnorePattern),
    n.world.Tree → n.world.IsDirAt n.folder.root → FilesAndDirs n.world n.folder.root →
    HasPatterns n.world n.folder.root ps → MissesNothing n ps := by
  intro h
  let _ : Blake3 := Blake3.reference
  let disk := keepDisk (lit "build/\n!build/keep.txt\n")
  have hT : disk.Tree := by decide +kernel
  have hroot : disk.IsDirAt [lit "r"] := by decide +kernel
  have hfd : FilesAndDirs disk [lit "r"] := by decide +kernel
  have hps : HasPatterns disk [lit "r"] keepPatterns := by decide +kernel
  obtain ⟨⟨st, hscan, hfound⟩, -⟩ :=
    h _ (Node.blank [lit "r"] (lit "A") disk) keepPatterns hT hroot hfd hps
  obtain ⟨st', hscan', hmem⟩ :=
    exists_scan (n := Node.blank [lit "r"] (lit "A") disk) hT hroot hfd hps
  obtain rfl : st = st' := (Prod.ext_iff.mp (hscan.symm.trans hscan')).2
  have hk : Present disk [lit "r"] (lit "build/keep.txt") :=
    ⟨[lit "build", lit "keep.txt"], .file 1, by decide, by decide +kernel, by decide +kernel⟩
  have hself : shouldIgnore (lit "build/keep.txt") keepPatterns = false := by decide +kernel
  have habove := ((hmem _).mp ((hfound _ hk).mpr hself)).2.2 (lit "build") (by decide)
  exact absurd habove (by decide +kernel)

end Lilsync
