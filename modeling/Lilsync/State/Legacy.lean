import Lilsync.Disk
import Lilsync.Identity
import Lilsync.Lib.Bincode
import Lilsync.State

/-!
# Index files

What `save_entries` writes and `load_saved_entries` reads, byte by byte.  Entries of
older versions had no symlink target, and the file does not say which version wrote
it: the present layout is tried first.  On the bytes of older entries it comes apart
where the symlink target is missing, within the first entry, because what stands there
is a size and what stands for the length of a string is part of another field.
-/

namespace Lilsync

open Std (ExtTreeMap)
open Lilsync.Lib Lilsync.Lib.Bincode Lilsync.Lib.Proc

/-! ## Layouts -/

/-- `LegacyEntry`. -/
structure LegacyEntry where
  path : Str
  kind : EntryKind
  contentHash : Option Hash
  size : Nat
  mode : Option UInt32
  version : Version
deriving DecidableEq, Repr

/-- `LegacyEntry::into_entry`. -/
def LegacyEntry.intoEntry (entry : LegacyEntry) : Entry where
  path := entry.path
  kind := entry.kind
  contentHash := entry.contentHash
  symlinkTarget := none
  size := entry.size
  mode := entry.mode
  version := entry.version

/-- An index of an older version. -/
abbrev LegacyIndex := BTreeMap Str LegacyEntry

def EntryKind.format : Format EntryKind := .enum [.file, .dir, .tombstone, .symlink]

theorem EntryKind.fits (kind : EntryKind) : format.Fits kind := by
  refine ⟨?_, by decide⟩
  cases kind <;> simp

/-- A `u32`. -/
def modeFormat : Format UInt32 where
  put mode := (Format.uint 4).put mode.toNat
  get := UInt32.ofNat <$> (Format.uint 4).get
  Fits _ := True
  run_get {mode} _ rest := by
    rw [StateT.run_map, (Format.uint 4).run_get (a := mode.toNat) mode.toNat_lt]
    exact congrArg (fun m ↦ some (m, rest)) UInt32.ofNat_toNat

def Version.format : Format Version where
  put version := (Format.uint 8).put version.lamport ++ Format.string.put version.origin
  get := do
    let lamport ← (Format.uint 8).get
    let origin ← Format.string.get
    pure { lamport, origin }
  Fits version := (Format.uint 8).Fits version.lamport ∧ Format.string.Fits version.origin
  run_get h rest := by
    rw [List.append_assoc, Format.run_bind_put _ h.1, Format.run_bind_put _ h.2]
    rfl

def Entry.format : Format Entry where
  put entry :=
    Format.string.put entry.path
      ++ (EntryKind.format.put entry.kind
      ++ ((Format.bytes 32).option.put entry.contentHash
      ++ (Format.string.option.put entry.symlinkTarget
      ++ ((Format.uint 8).put entry.size
      ++ (modeFormat.option.put entry.mode
      ++ Version.format.put entry.version)))))
  get := do
    let path ← Format.string.get
    let kind ← EntryKind.format.get
    let contentHash ← (Format.bytes 32).option.get
    let symlinkTarget ← Format.string.option.get
    let size ← (Format.uint 8).get
    let mode ← modeFormat.option.get
    let version ← Version.format.get
    pure { path, kind, contentHash, symlinkTarget, size, mode, version }
  Fits entry :=
    Format.string.Fits entry.path ∧ Format.string.option.Fits entry.symlinkTarget
      ∧ (Format.uint 8).Fits entry.size ∧ Version.format.Fits entry.version
  run_get {entry} h rest := by
    simp only [List.append_assoc]
    rw [Format.run_bind_put _ h.1, Format.run_bind_put _ entry.kind.fits,
      Format.run_bind_put _ fun _ _ ↦ trivial, Format.run_bind_put _ h.2.1,
      Format.run_bind_put _ h.2.2.1, Format.run_bind_put _ fun _ _ ↦ trivial,
      Format.run_bind_put _ h.2.2.2]
    rfl

def LegacyEntry.format : Format LegacyEntry where
  put entry :=
    Format.string.put entry.path
      ++ (EntryKind.format.put entry.kind
      ++ ((Format.bytes 32).option.put entry.contentHash
      ++ ((Format.uint 8).put entry.size
      ++ (modeFormat.option.put entry.mode
      ++ Version.format.put entry.version))))
  get := do
    let path ← Format.string.get
    let kind ← EntryKind.format.get
    let contentHash ← (Format.bytes 32).option.get
    let size ← (Format.uint 8).get
    let mode ← modeFormat.option.get
    let version ← Version.format.get
    pure { path, kind, contentHash, size, mode, version }
  Fits entry :=
    Format.string.Fits entry.path ∧ (Format.uint 8).Fits entry.size
      ∧ Version.format.Fits entry.version
  run_get {entry} h rest := by
    simp only [List.append_assoc]
    rw [Format.run_bind_put _ h.1, Format.run_bind_put _ entry.kind.fits,
      Format.run_bind_put _ fun _ _ ↦ trivial, Format.run_bind_put _ h.2.1,
      Format.run_bind_put _ fun _ _ ↦ trivial, Format.run_bind_put _ h.2.2]
    rfl

/-- `BTreeMap<String, Entry>`. -/
def indexFormat : Format Index := .map .string Entry.format

/-- `BTreeMap<String, LegacyEntry>`. -/
def legacyIndexFormat : Format LegacyIndex := .map .string LegacyEntry.format

/-! ## Loading -/

/-- What `load_saved_entries` makes of the bytes. -/
def parseEntries (bytes : List UInt8) : Option Index :=
  match indexFormat.deserialize bytes with
  | some entries => some entries
  | none => (legacyIndexFormat.deserialize bytes).map fun entries ↦
      ExtTreeMap.ofList (entries.toList.map fun pair ↦ (pair.1, pair.2.intoEntry))

section Load

variable {W : Type} [FileSystem W]

open FileSystem

/-- `load_saved_entries`, on the file itself. -/
def loadSavedEntriesFrom (stateDir : PathBuf) : Fs W Index := do
  let path := stateDir.join (lit "entries.bin")
  match ← Proc.attempt (read path) with
  | .ok bytes =>
    match parseEntries bytes with
    | some entries => pure entries
    | none => throw (.other (.corruptStateIndex path))
  | .error err => if err.kind = .notFound then pure ∅ else throw err

/-- `load_stored_entries`. -/
def loadStoredEntries (root : PathBuf) : Fs W Index := loadSavedEntriesFrom (root.join stateDir)

end Load

/-- The state file that a read of its bytes shows. -/
def Saved.ofRead : IoResult (List UInt8) → Saved Index
  | .ok bytes =>
    match parseEntries bytes with
    | some entries => .saved entries
    | none => .corrupt
  | .error err => if err.kind = .notFound then .missing else .corrupt

/-! ## Older entries in the present layout -/

/-- An origin cannot be longer than what is left of the input. -/
theorem run_version_eq_none {lamport len rest : List UInt8} (hl : lamport.length = 8)
    (hn : len.length = 8) (h : rest.length < ofLittleEndian len) :
    Version.format.get.run (lamport ++ (len ++ rest)) = none := by
  change ((Format.uint 8).get >>= _).run _ = none
  rw [run_bind_eq (Format.run_uint hl _)]
  exact run_bind_eq_none (Format.run_string_eq_none hn h) _

/-- Any four bytes are a mode. -/
theorem run_mode {bytes : List UInt8} (h : bytes.length = 4) (rest : List UInt8) :
    modeFormat.option.get.run (1 :: (bytes ++ rest)) =
      some (some (UInt32.ofNat (ofLittleEndian bytes)), rest) := by
  rw [Format.run_option_one]
  change ((UInt32.ofNat <$> (Format.uint 4).get).run _).map _ = _
  rw [StateT.run_map, Format.run_uint h]
  rfl

section Shifted

variable {α : Type} {mode lamport : Nat} {c : UInt8} {rest : List UInt8}

/-- A mode and a version that start one byte too late, behind the tag of the mode: the
low byte of the mode is the tag, and what then stands where the length of the origin is
expected is 1 GiB at least. -/
theorem run_lateMode_eq_none (k : Option UInt32 → Version → Reader α) (hc : c ≠ 0)
    (hrest : rest.length + 4 < 2 ^ 30) :
    (modeFormat.option.get >>= fun mode ↦ Version.format.get >>= k mode).run
      (littleEndian 4 mode ++ (littleEndian 8 lamport ++ (littleEndian 8 64 ++ (c :: rest)))) =
      none := by
  obtain ⟨m₀, m₁, m₂, m₃, hm⟩ : ∃ m₀ m₁ m₂ m₃, littleEndian 4 mode = [m₀, m₁, m₂, m₃] :=
    ⟨_, _, _, _, rfl⟩
  obtain ⟨l₀, l₁, l₂, l₃, l₄, l₅, l₆, l₇, hl⟩ :
      ∃ l₀ l₁ l₂ l₃ l₄ l₅ l₆ l₇, littleEndian 8 lamport = [l₀, l₁, l₂, l₃, l₄, l₅, l₆, l₇] :=
    ⟨_, _, _, _, _, _, _, _, rfl⟩
  have hlen : littleEndian 8 64 = [64, 0, 0, 0, 0, 0, 0, 0] := rfl
  rw [hm, hl, hlen]
  by_cases hnone : m₀ = 0
  · -- the length is the top of the clock and the low half of the true length
    subst hnone
    refine (run_bind_eq (Format.run_option_zero _ _) _).trans (run_bind_eq_none ?_ _)
    refine @run_version_eq_none [m₁, m₂, m₃, l₀, l₁, l₂, l₃, l₄] [l₅, l₆, l₇, 64, 0, 0, 0, 0]
      (0 :: 0 :: 0 :: c :: rest) rfl rfl ?_
    have htop := @le_ofLittleEndian_append 3 [l₅, l₆, l₇] rfl [64, 0, 0, 0, 0]
    rw [show ofLittleEndian [64, 0, 0, 0, 0] = 64 by decide] at htop
    refine lt_of_lt_of_le ?_ htop
    simp only [List.length_cons]
    omega
  by_cases hsome : m₀ = 1
  · -- the length is the rest of the true length, which is zero, and a digit on top
    subst hsome
    have hmode := @run_mode [m₁, m₂, m₃, l₀] rfl
      ([l₁, l₂, l₃, l₄, l₅, l₆, l₇, 64] ++ ([0, 0, 0, 0, 0, 0, 0, c] ++ rest))
    refine (run_bind_eq hmode _).trans (run_bind_eq_none (run_version_eq_none rfl rfl ?_) _)
    have hpos : 0 < c.toNat := Nat.pos_of_ne_zero fun h ↦ hc (UInt8.toNat_inj.mp h)
    have htop := @le_ofLittleEndian_append 7 [0, 0, 0, 0, 0, 0, 0] rfl [c]
    rw [show ofLittleEndian [c] = c.toNat from rfl] at htop
    refine lt_of_lt_of_le ?_ htop
    omega
  · exact run_bind_eq_none (Format.run_option_eq_none _ _ hnone hsome) _

/-- Without a symlink target the fields after the content hash are out of place: the low
byte of the size is read as the tag of the target. -/
theorem run_missingTarget_eq_none (k : Option Str → Nat → Option UInt32 → Version → Reader α)
    {size : Nat} (hc : c ≠ 0) (hrest : rest.length + 21 < 2 ^ 30) :
    (do
      let symlinkTarget ← Format.string.option.get
      let size ← (Format.uint 8).get
      let mode ← modeFormat.option.get
      let version ← Version.format.get
      k symlinkTarget size mode version).run
      (littleEndian 8 size ++ (1 :: (littleEndian 4 mode ++ (littleEndian 8 lamport
        ++ (littleEndian 8 64 ++ (c :: rest)))))) = none := by
  obtain ⟨s₀, s₁, s₂, s₃, s₄, s₅, s₆, s₇, hs⟩ :
      ∃ s₀ s₁ s₂ s₃ s₄ s₅ s₆ s₇, littleEndian 8 size = [s₀, s₁, s₂, s₃, s₄, s₅, s₆, s₇] :=
    ⟨_, _, _, _, _, _, _, _, rfl⟩
  rw [hs]
  by_cases hnone : s₀ = 0
  · -- no target: the tag of the mode becomes the top byte of the size
    subst hnone
    refine (run_bind_eq (Format.run_option_zero _ _) _).trans ?_
    have hsize := @Format.run_uint 8 [s₁, s₂, s₃, s₄, s₅, s₆, s₇, 1] rfl
    refine (run_bind_eq (hsize _) _).trans ?_
    exact run_lateMode_eq_none _ hc (by omega)
  by_cases hsome : s₀ = 1
  · -- a target: the tag of the mode becomes the top byte of its length
    subst hsome
    refine run_bind_eq_none ((Format.run_option_one _ _).trans ?_) _
    have hstring := @Format.run_string_eq_none [s₁, s₂, s₃, s₄, s₅, s₆, s₇, 1]
      (littleEndian 4 mode ++ (littleEndian 8 lamport ++ (littleEndian 8 64 ++ (c :: rest)))) rfl
    refine congrArg _ (hstring ?_)
    have htop := @le_ofLittleEndian_append 7 [s₁, s₂, s₃, s₄, s₅, s₆, s₇] rfl [1]
    rw [show ofLittleEndian [1] = 1 by decide] at htop
    refine lt_of_lt_of_le ?_ htop
    simp only [List.length_append, length_littleEndian, List.length_cons]
    omega
  · exact run_bind_eq_none (Format.run_option_eq_none _ _ hnone hsome) _

end Shifted
/-- What a scan on Unix records, stamped by a node: there is a mode, and the origin is
64 hexadecimal digits. -/
structure LegacyEntry.Scanned (entry : LegacyEntry) : Prop where
  mode : entry.mode.isSome
  length_origin : entry.version.origin.length = 64
  hex_origin : ∀ c ∈ entry.version.origin, (hexValue c).isSome

theorem LegacyEntry.run_eq_none {entry : LegacyEntry} (hfits : LegacyEntry.format.Fits entry)
    (h : entry.Scanned) {rest : List UInt8}
    (hlen : (LegacyEntry.format.put entry ++ rest).length < 2 ^ 30) :
    Entry.format.get.run (LegacyEntry.format.put entry ++ rest) = none := by
  obtain ⟨mode, hmode⟩ := Option.isSome_iff_exists.mp h.mode
  obtain ⟨c, cs, horigin⟩ : ∃ c cs, entry.version.origin = c :: cs :=
    List.exists_cons_of_length_eq_add_one h.length_origin
  have hc : c ≠ 0 := by
    rintro rfl
    have hhex := h.hex_origin 0 (by rw [horigin]; exact List.mem_cons_self)
    exact absurd hhex (by decide)
  have hput : LegacyEntry.format.put entry ++ rest =
      Format.string.put entry.path ++ (EntryKind.format.put entry.kind
        ++ ((Format.bytes 32).option.put entry.contentHash
        ++ (littleEndian 8 entry.size ++ (1 :: (littleEndian 4 mode.toNat
        ++ (littleEndian 8 entry.version.lamport
        ++ (littleEndian 8 64 ++ (c :: (cs ++ rest))))))))) := by
    have hstring : Format.string.put entry.version.origin = littleEndian 8 64 ++ (c :: cs) := by
      rw [← h.length_origin, ← horigin]
      rfl
    change (_ ++ (_ ++ (_ ++ (_ ++ (modeFormat.option.put entry.mode
      ++ (littleEndian 8 _ ++ Format.string.put entry.version.origin)))))) ++ rest = _
    rw [hstring, hmode]
    simp only [List.append_assoc, List.cons_append]
    rfl
  rw [hput] at hlen ⊢
  simp only [List.length_append, List.length_cons, length_littleEndian] at hlen
  change (Format.string.get >>= _).run _ = none
  rw [Format.run_bind_put _ hfits.1, Format.run_bind_put _ entry.kind.fits,
    Format.run_bind_put _ fun _ _ ↦ trivial]
  exact run_missingTarget_eq_none _ hc (by rw [List.length_append]; omega)

variable {legacy : LegacyIndex}

/-- The present layout fits no index of an older version that has an entry. -/
theorem deserialize_legacy_eq_none (hfits : legacyIndexFormat.Fits legacy)
    (hscanned : ∀ (path : Str) (entry : LegacyEntry), legacy[path]? = some entry → entry.Scanned)
    (hsize : (legacyIndexFormat.put legacy).length < 2 ^ 30) (hne : legacy ≠ ∅) :
    indexFormat.deserialize (legacyIndexFormat.put legacy) = none := by
  cases hl : legacy.toList with
  | nil => exact absurd (ExtTreeMap.toList_eq_nil_iff.mp hl) hne
  | cons pair l =>
    obtain ⟨path, entry⟩ := pair
    have hentry : legacy[path]? = some entry := by
      rw [← ExtTreeMap.mem_toList_iff_getElem?_eq_some, hl]
      exact List.mem_cons_self
    have hlength : legacy.size = l.length + 1 := by
      rw [← ExtTreeMap.length_toList, hl, List.length_cons]
    have hput : legacyIndexFormat.put legacy = (Format.uint 8).put (l.length + 1)
        ++ (Format.string.put path ++ (LegacyEntry.format.put entry
        ++ l.flatMap (Format.putPair .string LegacyEntry.format))) := by
      change (Format.uint 8).put legacy.size ++ legacy.toList.flatMap _ = _
      rw [hlength, hl, List.flatMap_cons, Format.putPair, List.append_assoc]
    have hsize' := hsize
    rw [hput, List.length_append, List.length_append] at hsize'
    have hrun := entry.run_eq_none (hfits.2 path entry hentry).2 (hscanned path entry hentry)
      (lt_of_le_of_lt ((Nat.le_add_left _ _).trans (Nat.le_add_left _ _)) hsize')
    have hcount : l.length + 1 < 256 ^ 8 := hlength ▸ hfits.1
    rw [hput, Format.deserialize]
    have hnone := Format.run_map_eq_none .string Entry.format hcount
      (hfits.2 path entry hentry).1 hrun
    exact congrArg (Option.map Prod.fst) hnone

/-- Reading the bytes of an older index gives its entries, without symlink targets. -/
theorem parseEntries_legacy (hfits : legacyIndexFormat.Fits legacy)
    (hscanned : ∀ (path : Str) (entry : LegacyEntry), legacy[path]? = some entry → entry.Scanned)
    (hsize : (legacyIndexFormat.put legacy).length < 2 ^ 30) :
    ∃ entries, parseEntries (legacyIndexFormat.put legacy) = some entries ∧
      ∀ path : Str, entries[path]? = legacy[path]?.map LegacyEntry.intoEntry := by
  by_cases hne : legacy = ∅
  · subst hne
    exact ⟨∅, rfl, fun path ↦ by simp⟩
  have hnew := deserialize_legacy_eq_none hfits hscanned hsize hne
  have hold := legacyIndexFormat.deserialize_put hfits
  rw [parseEntries, hnew, hold]
  exact ⟨_, rfl, fun path ↦ OrdMap.getElem?_ofList_map_toList legacy LegacyEntry.intoEntry path⟩

/-! ## The file -/

/-- What is written is there to be loaded. -/
theorem ofRead_put {entries : Index} (h : indexFormat.Fits entries) :
    Saved.ofRead (.ok (indexFormat.put entries)) = .saved entries := by
  rw [Saved.ofRead, parseEntries, indexFormat.deserialize_put h]

section File

variable {W : Type} [FileSystem W] {w w' : W} {dir : PathBuf}

open FileSystem

/-- The index loaded from the file is the one its bytes show. -/
theorem exec_loadSavedEntriesFrom (dir : PathBuf) (w : W) :
    (exec (loadSavedEntriesFrom dir) w).1.toOption =
      (loadSavedEntries
        (.ofRead (exec (read (dir.join (lit "entries.bin"))) w).1)).toOption := by
  rw [loadSavedEntriesFrom, exec_attempt_bind]
  cases (exec (read (dir.join (lit "entries.bin"))) w).1 with
  | ok bytes =>
    dsimp only [Saved.ofRead]
    cases parseEntries bytes <;> rfl
  | error err =>
    dsimp only [Saved.ofRead]
    by_cases h : err.kind = .notFound
    · rw [if_pos h, if_pos h]
      rfl
    · rw [if_neg h, if_neg h]
      rfl

/-- A file of one byte, as an older version recorded it. -/
def oldRecord : LegacyEntry where
  path := lit "f"
  kind := .file
  contentHash := some (Vector.replicate 32 7)
  size := 1
  mode := some 0o644
  version := ⟨1, List.replicate 64 97⟩

/-- The index with that one file. -/
def oldIndex : LegacyIndex := ExtTreeMap.ofList [(lit "f", oldRecord)]

/-- A disk with the index file of an older version. -/
def oldDisk : Posix.Disk :=
  Posix.Disk.of [([lit "lil"], .dir 0o755), ([lit "lil", lit "entries.bin"], .file 0)]
    [(0, ⟨legacyIndexFormat.put oldIndex, 0o644, 0⟩)]

end File

end Lilsync
