import Lilsync.Lib.Machine
import Lilsync.Scan

/-!
# The scan cache and a file that is written to

A file is written to while it is observed.  What an observation records comes
from three moments: the hash and the size from the last attempt of
`observe_file_when_stable`, which no write has touched, and the time from a stat
after it.  So the record is right as long as no write of the same size falls
between the two stats (`neverStale_of_recordsInTime`).
-/

namespace Lilsync

open Std (ExtTreeMap)
open Lilsync.Lib

/-- `is_recently_modified` at a time. -/
def recentlyModified (now : Nat) (metadata : Metadata) : Bool :=
  metadata.modified.any fun modified ↦ modified ≤ now && now - modified < fileStableAge

/-- `ScanCache::lookup` at a time. -/
def ScanCache.lookup (cache : ScanCache) (now : Nat) (relative : Str) (metadata : Metadata) :
    Option Hash :=
  if recentlyModified now metadata then none
  else match cache.files[relative]?, metadata.modified with
    | some cached, some mtime =>
      if cached.size = metadata.len ∧ cached.mtime = mtime then some cached.contentHash else none
    | _, _ => none

/-- What is served has been recorded for a file of that size and time. -/
theorem ScanCache.of_lookup {cache : ScanCache} {now : Nat} {relative : Str}
    {metadata : Metadata} {hash : Hash} (h : cache.lookup now relative metadata = some hash) :
    ∃ cached, cache.files[relative]? = some cached ∧ metadata.len = cached.size ∧
      metadata.modified = some cached.mtime ∧ cached.contentHash = hash := by
  rw [ScanCache.lookup] at h
  split at h
  · cases h
  · split at h
    · next cached mtime hcached hmtime =>
      split at h
      · next hsame =>
        exact ⟨cached, hcached, hsame.1.symm, hmtime.trans (congrArg some hsame.2.symm),
          Option.some.inj h⟩
      · cases h
    · cases h

/-- What a write leaves of a file. -/
structure FileVersion where
  content : List UInt8
  mtime : Nat
  permissions : UInt32

/-- The stat data of a file. -/
def FileVersion.metadata (v : FileVersion) : Metadata :=
  ⟨.file, v.content.length, some v.mtime, v.permissions⟩

/-- Where an observation stands: it looks into the cache, begins an attempt, looks at the
file after a pause, reads it, looks at it after hashing, looks at it before recording,
or records. -/
inductive ObservePc where
  | idle
  | looking (metadata : Metadata)
  | attempting (attempts : Nat) (before : Metadata)
  | paused (attempts : Nat)
  | hashing (attempts : Nat) (before : Metadata)
  | hashed (attempts : Nat) (before : Metadata) (contentHash : Hash)
  | observed (observed : ObservedFile) (afterHash : Metadata)
  | recording (observed : ObservedFile) (mtime : Option Nat)

/-- The stat after hashing, while the stat before recording is still to come. -/
def ObservePc.statAfterHash : ObservePc → Option Metadata
  | observed _ afterHash => some afterHash
  | _ => none

/-- A file that is written to, the versions it has had, and the observations of it. -/
structure CacheSystem where
  file : FileVersion
  past : List FileVersion
  now : Nat
  cache : ScanCache
  waitForRecent : Bool
  pc : ObservePc

/-- A write, the passing of time, the caller's stat that begins an observation, or the
next step of the one under way, whose file operation may fail. -/
inductive CacheAct where
  | write (version : FileVersion)
  | tick (now : Nat)
  | observe (waitForRecent : Bool)
  | run (fails : Bool)

namespace CacheSystem

variable [Blake3] {relative : Str} {s s' : CacheSystem}

/-- The versions the file has had so far. -/
def versions (s : CacheSystem) : List FileVersion := s.file :: s.past

/-- The next step of `observe_file_cached`. -/
def runObserve (relative : Str) (s : CacheSystem) (fails : Bool) : Option CacheSystem :=
  match s.pc with
  | .idle => none
  | .looking metadata =>
    match s.cache.lookup s.now relative metadata with
    | some _ => some { s with pc := .idle }
    | none => some { s with pc := .attempting fileStabilityAttempts metadata }
  | .attempting 0 _ => some { s with pc := .idle }
  | .attempting (attempts + 1) before =>
    if s.waitForRecent && recentlyModified s.now before then some { s with pc := .paused attempts }
    else some { s with pc := .hashing attempts before }
  | .paused attempts =>
    if fails then some { s with pc := .idle }
    else some { s with pc := .attempting attempts s.file.metadata }
  | .hashing attempts before =>
    if fails then some { s with pc := .idle }
    else some { s with pc := .hashed attempts before (Blake3.digest s.file.content) }
  | .hashed attempts before contentHash =>
    let afterHash := s.file.metadata
    if fails then some { s with pc := .idle }
    else if sameFileObservation before afterHash then
      some { s with pc := .observed ⟨contentHash, afterHash.len, mode afterHash⟩ afterHash }
    else some { s with pc := .attempting attempts afterHash }
  | .observed observed _ =>
    some { s with pc := .recording observed (if fails then none else some s.file.mtime) }
  | .recording observed mtime =>
    some { s with cache := s.cache.record relative observed.size mtime observed.contentHash,
                  pc := .idle }

/-- A write makes the file newer. -/
def next (relative : Str) (s : CacheSystem) : CacheAct → Option CacheSystem
  | .write version =>
    if s.file.mtime < version.mtime then
      some { s with file := version, past := s.versions }
    else none
  | .tick now => some { s with now }
  | .observe waitForRecent =>
    match s.pc with
    | .idle => some { s with waitForRecent, pc := .looking s.file.metadata }
    | _ => none
  | .run fails => s.runObserve relative fails

/-- Whatever the cache serves for a version of the file is the hash of its content. -/
def NeverStale (relative : Str) (s : CacheSystem) : Prop :=
  ∀ v ∈ s.versions, ∀ now, ∀ hash ∈ s.cache.lookup now relative v.metadata,
    hash = Blake3.digest v.content

/-- The stat before recording finds the file as it was after hashing, or with another
size. -/
def RecordsInTime (s : CacheSystem) : CacheAct → Prop
  | .run fails => fails = false → ∀ afterHash ∈ s.pc.statAfterHash,
      s.file.metadata.len = afterHash.len → s.file.metadata.modified = afterHash.modified
  | _ => True

/-! ## The invariant -/

/-- The stat data of a version the file has had. -/
def Looked (s : CacheSystem) (metadata : Metadata) : Prop :=
  ∃ v ∈ s.versions, metadata = v.metadata

/-- A hash that is right for the version with the given size and time, if there is one, and
will stay so. -/
def RightFor (s : CacheSystem) (size mtime : Nat) (hash : Hash) : Prop :=
  mtime ≤ s.file.mtime ∧
    ∀ v ∈ s.versions, v.content.length = size → v.mtime = mtime → hash = Blake3.digest v.content

/-- What an observation has seen of the file so far. -/
def SeenBy (s : CacheSystem) : ObservePc → Prop
  | .idle | .paused _ => True
  | .looking metadata | .attempting _ metadata | .hashing _ metadata => s.Looked metadata
  | .hashed _ before hash => ∃ v ∈ s.versions, ∃ w ∈ s.versions, before = v.metadata ∧
      hash = Blake3.digest w.content ∧ v.mtime ≤ w.mtime
  | .observed o afterHash => ∃ v ∈ s.versions, afterHash = v.metadata ∧
      o.size = v.content.length ∧ o.contentHash = Blake3.digest v.content
  | .recording o mtime => ∀ t ∈ mtime, s.RightFor o.size t o.contentHash

/-- The versions have different times, the latest of them the current one; what is
observed has been seen, and what is cached is right. -/
structure Faithful (relative : Str) (s : CacheSystem) : Prop where
  newer : ∀ v ∈ s.past, v.mtime < s.file.mtime
  distinct : ∀ v ∈ s.past, ∀ w ∈ s.past, v.mtime = w.mtime → v = w
  seen : s.SeenBy s.pc
  cached : ∀ c, s.cache.files[relative]? = some c → s.RightFor c.size c.mtime c.contentHash

omit [Blake3] in
theorem mem_versions (s : CacheSystem) : s.file ∈ s.versions := List.mem_cons_self

omit [Blake3] in
theorem looked_file (s : CacheSystem) : s.Looked s.file.metadata := ⟨s.file, s.mem_versions, rfl⟩

theorem Faithful.mtime_le (h : Faithful relative s) {v : FileVersion} (hv : v ∈ s.versions) :
    v.mtime ≤ s.file.mtime := by
  rcases List.mem_cons.mp hv with rfl | hv
  · exact le_rfl
  · exact (h.newer v hv).le

/-- A version that is as old as the current one is the current one. -/
theorem Faithful.eq_file (h : Faithful relative s) {v : FileVersion} (hv : v ∈ s.versions)
    (hmtime : s.file.mtime ≤ v.mtime) : v = s.file := by
  rcases List.mem_cons.mp hv with rfl | hv
  · rfl
  · exact absurd hmtime (h.newer v hv).not_ge

theorem Faithful.neverStale (h : Faithful relative s) : NeverStale relative s := by
  intro v hv now hash hhash
  obtain ⟨cached, hc, hsize, hmtime, rfl⟩ := ScanCache.of_lookup hhash
  exact (h.cached cached hc).2 v hv hsize (Option.some.inj hmtime)

/-! ## Steps -/

/-- A write makes a version that no record is about. -/
theorem RightFor.write {size mtime : Nat} {hash : Hash} (h : s.RightFor size mtime hash)
    {version : FileVersion} (hnew : s.file.mtime < version.mtime) :
    RightFor { s with file := version, past := s.versions } size mtime hash := by
  refine ⟨h.1.trans hnew.le, fun v hv hsize hmtime ↦ ?_⟩
  rcases List.mem_cons.mp hv with rfl | hv
  · exact absurd (hmtime ▸ h.1) hnew.not_ge
  · exact h.2 v hv hsize hmtime

theorem SeenBy.write {pc : ObservePc} (h : s.SeenBy pc) {version : FileVersion}
    (hnew : s.file.mtime < version.mtime) :
    SeenBy { s with file := version, past := s.versions } pc := by
  have hmem {v : FileVersion} (hv : v ∈ s.versions) : v ∈ version :: s.versions :=
    List.mem_cons_of_mem _ hv
  cases pc with
  | idle => trivial
  | paused attempts => trivial
  | looking metadata =>
    obtain ⟨v, hv, heq⟩ := h
    exact ⟨v, hmem hv, heq⟩
  | attempting attempts before =>
    obtain ⟨v, hv, heq⟩ := h
    exact ⟨v, hmem hv, heq⟩
  | hashing attempts before =>
    obtain ⟨v, hv, heq⟩ := h
    exact ⟨v, hmem hv, heq⟩
  | hashed attempts before hash =>
    obtain ⟨v, hv, w, hw, hrest⟩ := h
    exact ⟨v, hmem hv, w, hmem hw, hrest⟩
  | observed o afterHash =>
    obtain ⟨v, hv, hrest⟩ := h
    exact ⟨v, hmem hv, hrest⟩
  | recording o mtime => exact fun t ht ↦ (h t ht).write hnew

theorem Faithful.write (h : Faithful relative s) {version : FileVersion}
    (hnew : s.file.mtime < version.mtime) :
    Faithful relative { s with file := version, past := s.versions } where
  newer v hv := (h.mtime_le hv).trans_lt hnew
  distinct v hv w hw hmtime := by
    rcases List.mem_cons.mp hv with rfl | hv' <;> rcases List.mem_cons.mp hw with rfl | hw'
    · rfl
    · exact (h.eq_file hw hmtime.le).symm
    · exact h.eq_file hv hmtime.ge
    · exact h.distinct v hv' w hw' hmtime
  seen := h.seen.write hnew
  cached c hc := (h.cached c hc).write hnew

/-- Two looks at the file that agree have seen the current version, and so has the
read between them. -/
theorem Faithful.observed (h : Faithful relative s) {attempts : Nat} {before : Metadata}
    {hash : Hash} (hseen : s.SeenBy (.hashed attempts before hash))
    (hsame : sameFileObservation before s.file.metadata = true) :
    s.SeenBy (.observed ⟨hash, s.file.metadata.len, mode s.file.metadata⟩ s.file.metadata) := by
  obtain ⟨v, hv, w, hw, rfl, rfl, hle⟩ := hseen
  have hmtime : v.mtime = s.file.mtime := by
    rw [sameFileObservation, Bool.and_eq_true, Bool.and_eq_true, beq_iff_eq, beq_iff_eq] at hsame
    exact Option.some.inj hsame.1.2
  obtain rfl := h.eq_file hw (hmtime ▸ hle)
  exact ⟨s.file, s.mem_versions, rfl, rfl, rfl⟩

/-- What is recorded is right for the version that is there before recording. -/
theorem Faithful.recording (h : Faithful relative s) {o : ObservedFile} {afterHash : Metadata}
    (hseen : s.SeenBy (.observed o afterHash))
    (hintime : s.file.metadata.len = afterHash.len →
      s.file.metadata.modified = afterHash.modified) :
    s.RightFor o.size s.file.mtime o.contentHash := by
  obtain ⟨v, hv, rfl, hsize, hhash⟩ := hseen
  refine ⟨le_rfl, fun w hw hwsize hwmtime ↦ ?_⟩
  obtain rfl := h.eq_file hw hwmtime.ge
  have hsame : s.file.mtime = v.mtime := Option.some.inj (hintime (hwsize.trans hsize))
  obtain rfl := h.eq_file hv hsame.le
  exact hhash

/-- An observation that goes on. -/
theorem Faithful.goOn (h : Faithful relative s) {pc : ObservePc} (hseen : s.SeenBy pc) :
    Faithful relative { s with pc } :=
  ⟨h.newer, h.distinct, hseen, h.cached⟩

theorem Faithful.runObserve (h : Faithful relative s) {fails : Bool}
    (hintime : RecordsInTime s (.run fails)) (hrun : s.runObserve relative fails = some s') :
    Faithful relative s' := by
  have hseen := h.seen
  rw [CacheSystem.runObserve.eq_def] at hrun
  cases hpc : s.pc with rw [hpc] at hrun hseen
  | idle => cases hrun
  | looking metadata =>
    dsimp only at hrun
    split at hrun <;> cases hrun
    · exact h.goOn trivial
    · exact h.goOn hseen
  | attempting attempts before =>
    cases attempts with
    | zero =>
      cases hrun
      exact h.goOn trivial
    | succ attempts =>
      dsimp only at hrun
      split at hrun <;> cases hrun
      · exact h.goOn trivial
      · exact h.goOn hseen
  | paused attempts =>
    dsimp only at hrun
    split at hrun <;> cases hrun
    · exact h.goOn trivial
    · exact h.goOn s.looked_file
  | hashing attempts before =>
    dsimp only at hrun
    split at hrun <;> cases hrun
    · exact h.goOn trivial
    · obtain ⟨v, hv, heq⟩ := hseen
      exact h.goOn ⟨v, hv, s.file, s.mem_versions, heq, rfl, h.mtime_le hv⟩
  | hashed attempts before hash =>
    dsimp only at hrun
    split at hrun
    · cases hrun
      exact h.goOn trivial
    · split at hrun <;> cases hrun
      · next hsame => exact h.goOn (h.observed hseen hsame)
      · exact h.goOn s.looked_file
  | observed o afterHash =>
    cases hrun
    refine h.goOn fun t ht ↦ ?_
    cases fails with
    | true => cases ht
    | false =>
      obtain rfl := Option.some.inj ht
      exact h.recording hseen (hintime rfl afterHash (by rw [hpc]; rfl))
  | recording o mtime =>
    cases hrun
    refine ⟨h.newer, h.distinct, trivial, fun c hc ↦ ?_⟩
    cases mtime with
    | none => exact h.cached c hc
    | some t =>
      rw [ScanCache.record, OrdMap.getElem?_insert_eq, if_pos rfl] at hc
      obtain rfl := Option.some.inj hc
      exact hseen t rfl

theorem Faithful.next (h : Faithful relative s) {act : CacheAct} (hintime : RecordsInTime s act)
    (hnext : s.next relative act = some s') : Faithful relative s' := by
  cases act with
  | write version =>
    rw [CacheSystem.next] at hnext
    split at hnext <;> cases hnext
    · next hnew => exact h.write hnew
  | tick now =>
    cases hnext
    exact ⟨h.newer, h.distinct, h.seen, h.cached⟩
  | observe waitForRecent =>
    rw [CacheSystem.next] at hnext
    split at hnext <;> cases hnext
    exact ⟨h.newer, h.distinct, s.looked_file, h.cached⟩
  | run fails => exact h.runObserve hintime hnext

/-- A file that has not been looked at. -/
structure Unseen (s : CacheSystem) : Prop where
  past_eq : s.past = []
  files_eq : s.cache.files = ∅
  pc_eq : s.pc = .idle

/-- The machine of the writes to a file and of the observations of it, held to what `P`
allows. -/
def machine (relative : Str) (P : CacheSystem → CacheAct → Prop) : Machine CacheSystem :=
  .ofActions Unseen (next relative) P

/-- As long as every stat before recording finds the file as it was after hashing, or with
another size, the cache is never stale. -/
theorem neverStale_of_recordsInTime (h : (machine relative RecordsInTime).Reachable s) :
    NeverStale relative s := by
  refine (h.invariant (I := Faithful relative) ?_ ?_).neverStale
  · intro s hs
    refine ⟨?_, ?_, ?_, fun c hc ↦ ?_⟩
    · rw [hs.past_eq]
      exact fun v hv ↦ absurd hv List.not_mem_nil
    · rw [hs.past_eq]
      exact fun v hv ↦ absurd hv List.not_mem_nil
    · rw [hs.pc_eq]
      trivial
    · rw [hs.files_eq] at hc
      simp at hc
  · rintro s s' - hs ⟨act, hintime, hnext⟩
    exact hs.next hintime hnext

/-! ## A stale record -/

instance (s : CacheSystem) (act : CacheAct) : Decidable (RecordsInTime s act) :=
  match act with
  | .run fails => inferInstanceAs (Decidable (fails = false → ∀ afterHash ∈ s.pc.statAfterHash,
      s.file.metadata.len = afterHash.len → s.file.metadata.modified = afterHash.modified))
  | .write _ | .tick _ | .observe _ => isTrue trivial

/-- Seconds, as the clock counts them. -/
def seconds (n : Nat) : Nat := n * 1000000000

/-- A file with one byte, written at the given second. -/
def oneByte (b : UInt8) (n : Nat) : FileVersion := ⟨[b], seconds n, 0o644⟩

/-- The file of the first second, ten seconds later, not looked at yet. -/
def unseen : CacheSystem := ⟨oneByte 97 1, [], seconds 10, .empty, false, .idle⟩

/-- An observation up to the stat after hashing. -/
def hashFirst : List CacheAct := .observe false :: List.replicate 4 (.run false)

/-- The stat before recording, the record, and ten more seconds. -/
def thenRecord : List CacheAct := [.run false, .run false, .tick (seconds 20)]

omit [Blake3] in
theorem neverStale_after_write :
    letI : Blake3 := Blake3.reference
    ∃ s, Machine.runs (next (lit "a")) RecordsInTime unseen
      (hashFirst ++ thenRecord ++ [.write (oneByte 98 20)]) = some s ∧ NeverStale (lit "a") s := by
  let _ : Blake3 := Blake3.reference
  obtain ⟨s, hs⟩ : ∃ s, Machine.runs (next (lit "a")) RecordsInTime unseen
      (hashFirst ++ thenRecord ++ [.write (oneByte 98 20)]) = some s :=
    Option.isSome_iff_exists.mp (by decide +kernel)
  exact ⟨s, hs, neverStale_of_recordsInTime (Machine.reachable_runs (.init ⟨rfl, rfl, rfl⟩) hs)⟩

omit [Blake3] in
/-- The counterexample: the file is written to, with a byte again, after the stat after
hashing and before the one before recording.  The cache serves the hash of the old byte for
the new one. -/
theorem not_forall_neverStale :
    ¬ ∀ (_ : Blake3) relative s, (machine relative fun _ _ ↦ True).Reachable s →
      NeverStale relative s := by
  intro h
  let _ : Blake3 := Blake3.reference
  obtain ⟨s, hs, hstale⟩ := (Option.any_eq_true _ _).mp
    (show (Machine.runs (next (lit "a")) (fun _ _ ↦ True) unseen
      (hashFirst ++ .write (oneByte 98 10) :: thenRecord)).any (fun s ↦
        (s.cache.lookup s.now (lit "a") s.file.metadata).any
          (· != Blake3.digest s.file.content)) by decide +kernel)
  obtain ⟨hash, hhash, hne⟩ := (Option.any_eq_true _ _).mp hstale
  refine bne_iff_ne.mp hne (h _ (lit "a") s (Machine.reachable_runs (.init ⟨rfl, rfl, rfl⟩) hs)
    s.file s.mem_versions s.now hash hhash)

end CacheSystem

end Lilsync
