import Lilsync.State.Rescan

/-!
# The paths a scan emits

A scan writes the path of an object as text, `validate_remote_path` reads such a
text.  The two agree on names that are UTF-8 and have no backslash: their text
names the object again, no other object has it, and peers accept it
(`emitsUsable_iff`).
-/

namespace Lilsync

open Lilsync.Lib Lilsync.Lib.Proc Lilsync.Lib.Posix Lilsync.Lib.SlashPath

/-! ## The text of names -/

section Names

variable {q : PathBuf} {n : Str} {b : UInt8}

theorem isAbsolute_relOf (h : FileNames q) : isAbsolute (relOf q) = false := by
  rw [isAbsolute, beq_eq_false_iff_ne]
  intro hhead
  cases q with
  | nil => cases hhead
  | cons n q =>
    have hn := h n List.mem_cons_self
    obtain ⟨b, rest, hb⟩ := List.exists_cons_of_ne_nil (Utf8.lossy_ne_nil hn.ne_nil)
    have hslash := slash_notMem_lossy hn
    rw [hb] at hslash
    have hfirst : (relOf (n :: q)).head? = some b := by
      by_cases hq : q = []
      · rw [hq, relOf_singleton, hb, List.head?_cons]
      · rw [relOf_cons n hq, hb, List.cons_append, List.head?_cons]
    rw [hfirst] at hhead
    exact hslash (Option.some.inj hhead ▸ List.mem_cons_self)

theorem mem_relOf_iff (hb : b ≠ slash) : b ∈ relOf q ↔ ∃ n ∈ q, b ∈ Utf8.lossy n := by
  induction q with
  | nil => simp [relOf_nil]
  | cons n q ih =>
    by_cases hq : q = []
    · rw [hq, relOf_singleton]
      simp
    · rw [relOf_cons n hq, List.mem_append, List.mem_cons, ih]
      simp [hb]

/-- Names are UTF-8 exactly when joining their text to the folder gives them back. -/
theorem join_relOf_iff (h : FileNames q) (hne : q ≠ []) (root : PathBuf) :
    root.join (relOf q) = root ++ q ↔ ∀ n ∈ q, Utf8.valid n := by
  rw [PathBuf.join, isAbsolute_relOf h, if_neg Bool.false_ne_true, List.append_cancel_left_eq,
    PathBuf.names, splitOn_relOf h hne]
  constructor
  · intro hq n hn
    have hlen : ((q.map Utf8.lossy).filter fun c ↦ c ≠ [] ∧ c ≠ lit ".").length =
        (q.map Utf8.lossy).length := by rw [hq, List.length_map]
    rw [List.filter_sublist.eq_of_length hlen] at hq
    refine Utf8.valid_of_lossy ?_
    exact List.map_eq_map_iff.mp (hq.trans (List.map_id q).symm) n hn
  · intro hvalid
    rw [map_lossy_eq_self hvalid]
    refine List.filter_eq_self.mpr fun n hn ↦ decide_eq_true ?_
    exact ⟨(h n hn).ne_nil, (h n hn).ne_dot⟩

theorem components_relOf (h : FileNames q) (hne : q ≠ []) (hvalid : ∀ n ∈ q, Utf8.valid n) :
    components (relOf q) = q.map .normal := by
  have hpiece : ∀ n ∈ q, pieceComponent n = some (.normal n) := by
    intro n hn
    have hdot : n ≠ lit "." := (h n hn).ne_dot
    have hdotdot : n ≠ lit ".." := (h n hn).ne_dotdot
    rw [pieceComponent, if_neg (not_or.mpr ⟨(h n hn).ne_nil, hdot⟩), if_neg hdotdot]
  have hbody : q.filterMap pieceComponent = q.map .normal := by
    rw [← List.filterMap_eq_map]
    exact List.filterMap_congr hpiece
  have hhead : q.head? ≠ some (lit ".") := by
    intro hdot
    exact (h _ (List.mem_of_head? hdot)).ne_dot rfl
  rw [components, isAbsolute_relOf h, splitOn_relOf h hne, map_lossy_eq_self hvalid, hbody]
  simp [hhead]

/-- Peers accept the text of names that are UTF-8, have no backslash and are not ignored. -/
theorem validRemotePath_relOf {ps : List IgnorePattern} (h : FileNames q) (hne : q ≠ [])
    (hvalid : ∀ n ∈ q, Utf8.valid n) (hnul : ∀ n ∈ q, nul ∉ n) (hback : ∀ n ∈ q, backslash ∉ n)
    (hu : shouldIgnore (relOf q) ps = false) : ValidRemotePath (relOf q) := by
  have hmem (b : UInt8) (hb : b ≠ slash) (hnot : ∀ n ∈ q, b ∉ n) : b ∉ relOf q := by
    rw [mem_relOf_iff hb]
    rintro ⟨n, hn, hlossy⟩
    rw [Utf8.lossy_of_valid (hvalid n hn)] at hlossy
    exact hnot n hn hlossy
  have hsplit : (relOf q).splitOn slash = q := by
    rw [splitOn_relOf h hne, map_lossy_eq_self hvalid]
  have hcomponent : ∀ n ∈ q, shouldIgnoreComponent n = false := by
    intro n hn
    rw [shouldIgnore] at hu
    split at hu
    · next hrel =>
      -- the file of the patterns itself
      rw [hrel] at hsplit
      rw [← hsplit] at hn
      obtain rfl : n = ignoreFileName := by
        rw [← List.mem_singleton]
        exact hn
      decide
    · rw [Bool.or_eq_false_iff, components_relOf h hne hvalid, List.any_eq_false] at hu
      have hnot := hu.1 (.normal n) (List.mem_map_of_mem hn)
      rwa [Component.asOsStr, Utf8.lossy_of_valid (hvalid n hn), Bool.not_eq_true] at hnot
  have hpieces : ((relOf q).splitOn slash).any (fun component ↦ component == [] ||
      component == lit "." || component == lit ".." || shouldIgnoreComponent component) = false := by
    rw [hsplit, List.any_eq_false]
    intro n hn
    have hname := h n hn
    have hdot : n ≠ lit "." := hname.ne_dot
    have hdotdot : n ≠ lit ".." := hname.ne_dotdot
    simp [hname.ne_nil, hdot, hdotdot, hcomponent n hn]
  have hspecial : (components (relOf q)).any Component.isSpecial = false := by
    rw [components_relOf h hne hvalid, List.any_eq_false]
    intro c hc
    obtain ⟨n, -, rfl⟩ := List.mem_map.mp hc
    exact Bool.false_ne_true
  rw [ValidRemotePath, validateRemotePath, if_neg (relOf_ne_nil h hne),
    if_neg (not_or.mpr ⟨hmem nul (by decide) hnul, hmem backslash (by decide) hback⟩), hpieces,
    isAbsolute_relOf h, hspecial]
  rfl

/-- A text that peers accept has no backslash. -/
theorem backslash_notMem_of_validRemotePath {path : Str} (h : ValidRemotePath path) :
    backslash ∉ path := by
  intro hmem
  rw [ValidRemotePath, validateRemotePath] at h
  split at h
  · cases h
  · rw [if_pos (.inr hmem)] at h
    cases h

end Names

/-! ## What a scan finds -/

section Emitted

variable [Blake3] {d : Disk} {root : PathBuf} {ps : List IgnorePattern} {cache : ScanCache}

/-- A scan finds the object with these names below the folder. -/
def Scanned (d : Disk) (root : PathBuf) (ps : List IgnorePattern) (q : PathBuf) : Prop :=
  q ≠ [] ∧ Unhidden ps [] q ∧ ∃ o, d.obj (root ++ q) = some o ∧ Recordable o

/-- No name has a NUL: the system has no such names. -/
def LegalNames (d : Disk) (root : PathBuf) : Prop :=
  ∀ q o, d.obj (root ++ q) = some o → ∀ n ∈ q, nul ∉ n

/-- A scan emits the path of every object it finds and no others; different objects have
different paths, a path joined to the folder names its object, and peers accept it. -/
structure EmitsUsable (d : Disk) (root : PathBuf) (ps : List IgnorePattern) (cache : ScanCache) :
    Prop where
  emits : ∃ st, exec (scanFolder root) ⟨d, cache, ∅, ∅⟩ = (.ok (), st) ∧
    ∀ k, k ∈ st.entries ↔ ∃ q, Scanned d root ps q ∧ relOf q = k
  distinct : ∀ q q', Scanned d root ps q → Scanned d root ps q' → relOf q = relOf q' → q = q'
  names : ∀ q, Scanned d root ps q → root.join (relOf q) = root ++ q
  accepted : ∀ q, Scanned d root ps q → ValidRemotePath (relOf q)

/-- All names on the way to what a scan finds are UTF-8 and have no backslash. -/
def PlainNames (d : Disk) (root : PathBuf) (ps : List IgnorePattern) : Prop :=
  ∀ q, Scanned d root ps q → ∀ n ∈ q, Utf8.valid n ∧ backslash ∉ n

theorem Observed.recordable {files : BTreeMap Str CachedFile} {k : Str} {o : Obj} {e : Entry}
    (h : Observed d root files k o e) : Recordable o := by
  cases h with
  | dir m => trivial
  | file i hash hhash => trivial
  | symlink target ht => exact ht

/-- A scan of a tree emits the paths of what it finds. -/
theorem exists_emitted (hT : d.Tree) (hroot : d.IsDirAt root) (hps : HasPatterns d root ps)
    (cache : ScanCache) : ∃ st, exec (scanFolder root) ⟨d, cache, ∅, ∅⟩ = (.ok (), st) ∧
      ∀ k, k ∈ st.entries ↔ ∃ q, Scanned d root ps q ∧ relOf q = k := by
  obtain ⟨m, hm⟩ := hroot
  obtain ⟨st, hscan, hscans⟩ := exec_scanFolder hT hm hps cache
  refine ⟨st, hscan, fun k ↦ ⟨fun hk ↦ ?_, ?_⟩⟩
  · obtain ⟨e, he⟩ := Option.isSome_iff_exists.mp (Std.ExtTreeMap.mem_iff_isSome_getElem?.mp hk)
    rcases hscans.found k e he with hnone | ⟨q, o, hq, hu, ho, hrel, hobs⟩
    · simp at hnone
    · exact ⟨q, ⟨hq, hu, o, ho, hobs.recordable⟩, hrel⟩
  · rintro ⟨q, ⟨hq, hu, o, ho, hr⟩, rfl⟩
    exact hscans.covers q o hq hu ho hr

/-- The paths a scan emits are usable by everyone exactly if all names in them are UTF-8
and have no backslash. -/
theorem emitsUsable_iff (hT : d.Tree) (hroot : d.IsDirAt root) (hlegal : LegalNames d root)
    (hps : HasPatterns d root ps) : EmitsUsable d root ps cache ↔ PlainNames d root ps := by
  have hnames : ∀ q, Scanned d root ps q → FileNames q := by
    rintro q ⟨-, -, o, ho, -⟩ n hn
    exact hT.fileName _ o ho n (List.mem_append_right _ hn)
  constructor
  · intro h q hq n hn
    have hvalid := (join_relOf_iff (hnames q hq) hq.1 root).mp (h.names q hq)
    refine ⟨hvalid n hn, fun hback ↦ ?_⟩
    refine backslash_notMem_of_validRemotePath (h.accepted q hq) ?_
    refine (mem_relOf_iff (by decide)).mpr ⟨n, hn, ?_⟩
    rwa [Utf8.lossy_of_valid (hvalid n hn)]
  · intro h
    refine ⟨exists_emitted hT hroot hps cache, fun q q' hq hq' hrel ↦ ?_, fun q hq ↦ ?_,
      fun q hq ↦ ?_⟩
    · exact relOf_injective (hnames q hq) (hnames q' hq') (fun n hn ↦ (h q hq n hn).1)
        (fun n hn ↦ (h q' hq' n hn).1) hrel
    · exact (join_relOf_iff (hnames q hq) hq.1 root).mpr fun n hn ↦ (h q hq n hn).1
    · obtain ⟨o, ho, -⟩ := hq.2.2
      exact validRemotePath_relOf (hnames q hq) hq.1 (fun n hn ↦ (h q hq n hn).1)
        (hlegal q o ho) (fun n hn ↦ (h q hq n hn).2) (hq.2.1 q List.prefix_rfl hq.1)

end Emitted

/-! ## Two folders -/

section Keys

variable {d : Disk} {root : PathBuf}

/-- It is enough to look at the names of all objects of the disk. -/
theorem legalNames_of_keys (h : ∀ p ∈ d.objects.keys, ∀ n ∈ p, nul ∉ n) : LegalNames d root := by
  intro q o ho n hn
  have hne : root ++ q ≠ [] := fun hnil ↦ by
    rw [(List.append_eq_nil_iff.mp hnil).2] at hn
    cases hn
  exact h _ (Disk.mem_keys_of_obj hne ho) n (List.mem_append_right _ hn)

theorem plainNames_of_keys {ps : List IgnorePattern}
    (h : ∀ p ∈ d.objects.keys, ∀ n ∈ p, Utf8.valid n ∧ backslash ∉ n) : PlainNames d root ps := by
  rintro q ⟨hq, -, o, ho, -⟩ n hn
  exact h _ (Disk.mem_keys_of_obj (by simp [hq]) ho) n (List.mem_append_right _ hn)

end Keys

/-- A folder with a single file in a directory. -/
def diskWithName (name : Str) : Disk :=
  Disk.of [([lit "r"], .dir 0o755), ([lit "r", lit "d"], .dir 0o755),
    ([lit "r", lit "d", name], .file 0)] [(0, ⟨lit "x", 0o644, 0⟩)]

/-- A name with a space and letters beyond ASCII. -/
theorem emitsUsable_of_plainName : letI : Blake3 := Blake3.reference
    EmitsUsable (diskWithName (lit "a b" ++ [0xC3, 0xA9])) [lit "r"] [] ScanCache.empty := by
  let _ : Blake3 := Blake3.reference
  have hT : (diskWithName (lit "a b" ++ [0xC3, 0xA9])).Tree := by decide +kernel
  exact (emitsUsable_iff hT (by decide +kernel) (legalNames_of_keys (by decide +kernel))
    (by decide +kernel)).mpr (plainNames_of_keys (by decide +kernel))

/-- The counterexample: a name with a backslash is emitted, and every peer refuses it. -/
theorem not_forall_emitsUsable : ¬ ∀ (_ : Blake3) (d : Disk) (root : PathBuf)
    (ps : List IgnorePattern) (cache : ScanCache), d.Tree → d.IsDirAt root → LegalNames d root →
    HasPatterns d root ps → EmitsUsable d root ps cache := by
  intro h
  let _ : Blake3 := Blake3.reference
  have hT : (diskWithName (lit "a\\b")).Tree := by decide +kernel
  have husable := h Blake3.reference (diskWithName (lit "a\\b")) [lit "r"] [] ScanCache.empty hT
    (by decide +kernel) (legalNames_of_keys (by decide +kernel)) (by decide +kernel)
  have hscanned : Scanned (diskWithName (lit "a\\b")) [lit "r"] [] [lit "d", lit "a\\b"] := by
    refine ⟨List.cons_ne_nil _ _, ?_, .file 0, by decide +kernel, trivial⟩
    exact unhidden_cons_iff.mpr ⟨by decide +kernel, unhidden_cons_iff.mpr ⟨by decide +kernel,
      fun c hc hne ↦ absurd (List.prefix_nil.mp hc) hne⟩⟩
  exact absurd (husable.accepted _ hscanned) (by decide +kernel)

end Lilsync
