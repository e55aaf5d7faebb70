import Lilsync.Disk
import Lilsync.Lib.Newest
import Lilsync.Replica.Stamp
import Lilsync.State.Remote

/-!
# Remote entries in any order

As long as no entry is put in place of something with live entries below it, a
run of `apply_remote_entries` puts the entries into the registers of the index
and keeps the newest at each path.  The index and the clock depend on what has
arrived, not on the order, the repetitions or the batches.
-/

namespace Lilsync

open Std (ExtTreeMap)
open Lilsync.Lib Lilsync.Lib.Proc

namespace Replica

variable {r : Replica} {remote : Entry} {received : List Entry}

/-- The index as registers, one for each path, with the clock. -/
def registers (r : Replica) : Registers Str Entry Nat := ⟨fun k ↦ r.entries[k]?, r.lamport⟩

/-- A tombstone at or under the GC watermark. -/
def Covered (r : Replica) (remote : Entry) : Prop :=
  remote.kind = .tombstone ∧ r.isVersionGced remote.version

instance : DecidablePred r.Covered := fun _ ↦ inferInstanceAs (Decidable (_ ∧ _))

/-- Put an entry into the registers, unless it is not newer than what is there. -/
abbrev put (s : Registers Str Entry Nat) (remote : Entry) : Registers Str Entry Nat :=
  s.put Entry.path Entry.version (fun e ↦ e.version.lamport) remote

/-- Put entries into the registers. -/
abbrev putAll (s : Registers Str Entry Nat) (l : List Entry) : Registers Str Entry Nat :=
  s.putAll Entry.path Entry.version (fun e ↦ e.version.lamport) l

/-- Nothing is buried by any of the entries: below one that is no directory there are
neither other ones nor live entries of the index. -/
def Apart (r : Replica) (received : List Entry) : Prop :=
  ∀ x ∈ received, x.kind ≠ .dir → (∀ y ∈ received, ¬ SlashPath.Below slash x.path y.path) ∧
    ∀ k, SlashPath.Below slash x.path k → NotLive r.entries k

theorem Apart.not_buries (h : r.Apart received) (hremote : remote ∈ received) :
    ¬ Buries r remote := by
  rintro ⟨hk, k, hbelow, hlive⟩
  exact hlive ((h remote hremote hk).2 k hbelow)

/-- Receiving one of the entries buries nothing of the others. -/
theorem Apart.receive (h : r.Apart received) (hremote : remote ∈ received) :
    (r.receive remote).Apart received := by
  intro x hx hk
  obtain ⟨hapart, hlive⟩ := h x hx hk
  refine ⟨hapart, fun k hbelow e he ↦ ?_⟩
  rw [getElem?_receive] at he
  split at he
  · next heq => exact absurd (heq ▸ hbelow) (hapart remote hremote)
  · exact hlive k hbelow e he

theorem registers_receive (hnew : ∀ y ∈ r.entries[remote.path]?, y.version < remote.version) :
    (r.receive remote).registers = put r.registers remote := by
  have hnew' : ∀ y ∈ r.registers.values remote.path, y.version < remote.version := hnew
  refine Registers.ext (funext fun k ↦ ?_) ?_
  · change (r.receive remote).entries[k]? = _
    rw [getElem?_receive]
    split
    · next hk => rw [put, ← hk, Registers.values_put_self hnew']
    · next hk =>
      rw [put, Registers.values_put_of_ne (Ne.symm hk)]
      rfl
  · rw [put, Registers.clock_put hnew']
    rfl

/-- An entry that is accepted is put into its register. -/
theorem registers_of_accepted (h : r.shouldAcceptRemote remote) :
    ¬ r.Covered remote ∧ (r.receive remote).registers = put r.registers remote := by
  refine ⟨?_, registers_receive fun y hy ↦ lt_of_shouldAcceptRemote h hy⟩
  rintro ⟨hkind, hcovered⟩
  rw [shouldAcceptRemote] at h
  simp [hkind, hcovered] at h

/-- An entry that is not accepted is covered, or not newer than what is there. -/
theorem registers_of_rejected (hvalid : ValidRemotePath remote.path)
    (h : r.shouldAcceptRemote remote = false) (hcovered : ¬ r.Covered remote) :
    r.registers = put r.registers remote := by
  refine (Registers.put_of_not_newer fun hnew ↦ ?_).symm
  rw [shouldAcceptRemote, if_neg (not_not_intro hvalid), if_neg] at h
  · have hnew' : ∀ y ∈ r.entries[remote.path]?, y.version < remote.version := hnew
    generalize r.entries[remote.path]? = o at h hnew'
    cases o with
    | none => cases h
    | some y => exact absurd (hnew' y rfl) (of_decide_eq_false h)
  · rwa [Covered, ← decide_eq_true_iff (p := remote.kind = .tombstone), ← Bool.and_eq_true]
      at hcovered

end Replica

variable {W : Type} [FileSystem W]

open FileSystem Replica

/-! ## Runs -/

/-- Only entries with valid paths get through. -/
theorem validRemotePath_of_exec_ok {n n' : Node W} {remote : Entry} {tmp : Option PathBuf}
    {cs : List Change} (h : exec (applyRemoteEntryCore remote tmp) n = (.ok cs, n')) :
    ValidRemotePath remote.path := by
  rw [applyRemoteEntryCore.eq_def] at h
  obtain ⟨_, n₁, hvalid, -⟩ := of_exec_bind h
  rw [ValidRemotePath]
  cases hv : validateRemotePath remote.path with
  | ok u => rfl
  | error err =>
    rw [hv] at hvalid
    cases hvalid

/-- What has become of a node that has received entries. -/
structure Received (r r' : Replica) (l : List Entry) : Prop where
  gcWatermark_eq : r'.gcWatermark = r.gcWatermark
  registers_eq : r'.registers = putAll r.registers (l.filter fun x ↦ ¬ r.Covered x)

namespace Received

variable {r r' r'' : Replica} {l l' : List Entry}

theorem nil (r : Replica) : Received r r [] := ⟨rfl, rfl⟩

theorem covered_iff (h : Received r r' l) (x : Entry) : r'.Covered x ↔ r.Covered x := by
  rw [Covered, Covered, isVersionGced, isVersionGced, h.gcWatermark_eq]

theorem trans (h : Received r r' l) (h' : Received r' r'' l') : Received r r'' (l ++ l') where
  gcWatermark_eq := h'.gcWatermark_eq.trans h.gcWatermark_eq
  registers_eq := by
    rw [h'.registers_eq, h.registers_eq, List.filter_append, putAll, putAll, putAll,
      Registers.putAll_append]
    simp only [h.covered_iff]

end Received

/-- One turn of the loop. -/
theorem received_applyRemoteEntryCore {n n' : Node W} {remote : Entry} {tmp : Option PathBuf}
    {cs : List Change} {received : List Entry} (hapart : n.folder.Apart received)
    (hremote : remote ∈ received) (h : exec (applyRemoteEntryCore remote tmp) n = (.ok cs, n')) :
    Received n.folder.toReplica n'.folder.toReplica [remote] ∧ n'.folder.Apart received := by
  have hvalid := validRemotePath_of_exec_ok h
  obtain ⟨w, ⟨err, hcore⟩ | ⟨hacc, hcore⟩ | ⟨hacc, hcore⟩⟩ :=
    exec_applyRemoteEntryCore_cases remote tmp n <;> rw [hcore] at h
  · cases h
  · obtain ⟨-, rfl⟩ := Prod.mk.inj h
    refine ⟨⟨rfl, ?_⟩, hapart⟩
    by_cases hcovered : n.folder.Covered remote
    · rw [List.filter_cons_of_neg (by simpa using hcovered)]
      rfl
    · rw [List.filter_cons_of_pos (by simpa using hcovered)]
      exact registers_of_rejected hvalid hacc hcovered
  · obtain ⟨-, rfl⟩ := Prod.mk.inj h
    obtain ⟨hcovered, hregisters⟩ := registers_of_accepted hacc
    rw [Node.toReplica_withReplica, recordRemote_eq_of_not_buries (hapart.not_buries hremote)]
    refine ⟨⟨rfl, ?_⟩, hapart.receive hremote⟩
    rw [List.filter_cons_of_pos (by simpa using hcovered)]
    exact hregisters

theorem received_foldlM_applyRemoteItem {batch : List (Entry × Option PathBuf)}
    {cs cs' : List Change} {n n' : Node W} {received : List Entry}
    (hapart : n.folder.Apart received) (hbatch : ∀ item ∈ batch, item.1 ∈ received)
    (h : exec (batch.foldlM applyRemoteItem cs) n = (.ok cs', n')) :
    Received n.folder.toReplica n'.folder.toReplica (batch.map Prod.fst) ∧
      n'.folder.Apart received := by
  induction batch generalizing cs n with
  | nil =>
    cases h
    exact ⟨.nil _, hapart⟩
  | cons item batch ih =>
    rw [List.forall_mem_cons] at hbatch
    rw [List.foldlM_cons, exec_bind, exec_applyRemoteItem] at h
    match hcore : exec (applyRemoteEntryCore item.1 item.2) n with
    | (.error err, n₁) =>
      rw [hcore] at h
      cases h
    | (.ok changes, n₁) =>
      rw [hcore] at h
      obtain ⟨hone, hapart₁⟩ := received_applyRemoteEntryCore hapart hbatch.1 hcore
      obtain ⟨hrest, hapart'⟩ := ih hapart₁ hbatch.2 h
      exact ⟨hone.trans hrest, hapart'⟩

variable [Blake3]

theorem received_applyRemoteEntries {batch : List (Entry × Option PathBuf)} {cs : List Change}
    {n n' : Node W} {received : List Entry} (hapart : n.folder.Apart received)
    (hbatch : ∀ item ∈ batch, item.1 ∈ received)
    (h : exec (applyRemoteEntries batch) n = (.ok cs, n')) :
    Received n.folder.toReplica n'.folder.toReplica (batch.map Prod.fst) ∧
      n'.folder.Apart received := by
  rw [applyRemoteEntries] at h
  obtain ⟨cs', n₁, hloop, hrest⟩ := of_exec_bind h
  obtain ⟨_, n₂, hcommit, hpure⟩ := of_exec_bind hrest
  obtain ⟨-, rfl⟩ := Prod.mk.inj hpure
  have heq := toReplica_commitChanges cs' n₁
  rw [hcommit] at heq
  rw [heq]
  exact received_foldlM_applyRemoteItem hapart hbatch hloop

/-- Calls of `apply_remote_entries`, one after the other. -/
def applyBatches (batches : List (List (Entry × Option PathBuf))) : NodeM W Unit :=
  batches.forM fun batch ↦ do
    let _ ← applyRemoteEntries batch

/-- The entries of the batches. -/
def entriesOf (batches : List (List (Entry × Option PathBuf))) : List Entry :=
  batches.flatten.map Prod.fst

theorem received_applyBatches {batches : List (List (Entry × Option PathBuf))} {n n' : Node W}
    {received : List Entry} (hapart : n.folder.Apart received)
    (hbatches : ∀ x ∈ entriesOf batches, x ∈ received)
    (h : exec (applyBatches batches) n = (.ok (), n')) :
    Received n.folder.toReplica n'.folder.toReplica (entriesOf batches) := by
  induction batches generalizing n with
  | nil =>
    cases h
    exact .nil _
  | cons batch batches ih =>
    have heq : entriesOf (batch :: batches) = batch.map Prod.fst ++ entriesOf batches := by
      simp [entriesOf]
    rw [heq, List.forall_mem_append] at hbatches
    rw [applyBatches, List.forM_eq_forM, List.forM_cons] at h
    obtain ⟨_, n₁, hbatch, hrest⟩ := of_exec_bind h
    obtain ⟨cs, n₂, hcall, hpure⟩ := of_exec_bind hbatch
    obtain ⟨-, rfl⟩ := Prod.mk.inj hpure
    obtain ⟨hone, hapart₁⟩ := received_applyRemoteEntries hapart
      (fun item hitem ↦ hbatches.1 item.1 (List.mem_map_of_mem hitem)) hcall
    rw [heq]
    exact hone.trans (ih hapart₁ hbatches.2 hrest)

/-! ## Two runs -/

/-- An entry that may end up at the path: the one that is there, or one received that is no
covered tombstone. -/
def Replica.Candidate (r : Replica) (received : List Entry) (k : Str) (x : Entry) : Prop :=
  r.entries[k]? = some x ∨ x ∈ received ∧ x.path = k ∧ ¬ r.Covered x

/-- A candidate of the greatest version, if there is a candidate. -/
structure Replica.VersionMax (r : Replica) (received : List Entry) (k : Str) (o : Option Entry) :
    Prop where
  mem : ∀ x ∈ o, r.Candidate received k x
  max : ∀ x, r.Candidate received k x → ∃ y ∈ o, x.version ≤ y.version

omit [FileSystem W] [Blake3] in
theorem Received.versionMax {r r' : Replica} {l : List Entry} (h : Received r r' l) (k : Str) :
    r.VersionMax l k r'.entries[k]? := by
  have hnewest := Registers.newest_putAll Entry.path Entry.version (fun e ↦ e.version.lamport)
    (l.filter fun x ↦ ¬ r.Covered x) r.registers k
  rw [← putAll, ← h.registers_eq] at hnewest
  refine ⟨fun x hx ↦ ?_, ?_⟩
  · rcases hnewest.mem x hx with hold | ⟨hmem, hpath, -⟩
    · exact .inl hold
    · obtain ⟨hmem, hcovered⟩ := List.mem_filter.mp hmem
      exact .inr ⟨hmem, hpath, of_decide_eq_true hcovered⟩
  · rintro x (hold | ⟨hmem, hpath, hcovered⟩)
    · exact hnewest.covers_old x hold
    · have hmem' : x ∈ l.filter fun x ↦ ¬ r.Covered x :=
        List.mem_filter.mpr ⟨hmem, decide_eq_true hcovered⟩
      exact hnewest.covers_new x hmem' hpath x rfl

/-- Two runs over the same entries, in any order, with any repetitions and in any batches,
end with the same index and the same clock: at each path is the candidate of the greatest
version. -/
theorem applyBatches_agree {n n₁ n' n₁' : Node W}
    {batches batches' : List (List (Entry × Option PathBuf))}
    (hn : n'.folder.toReplica = n.folder.toReplica)
    (hrun : exec (applyBatches batches) n = (.ok (), n₁))
    (hrun' : exec (applyBatches batches') n' = (.ok (), n₁'))
    (hsame : ∀ x, x ∈ entriesOf batches ↔ x ∈ entriesOf batches')
    (hversion : ∀ x ∈ entriesOf batches, ∀ y ∈ entriesOf batches, x.path = y.path →
      x.version = y.version → x = y)
    (hapart : n.folder.Apart (entriesOf batches)) :
    n₁.folder.entries = n₁'.folder.entries ∧ n₁.folder.lamport = n₁'.folder.lamport ∧
      ∀ k, n.folder.VersionMax (entriesOf batches) k n₁.folder.entries[k]? := by
  have hreceived := received_applyBatches hapart (fun _ ↦ id) hrun
  have hreceived' := received_applyBatches (n := n') (hn ▸ hapart) (fun x ↦ (hsame x).mpr) hrun'
  rw [hn] at hreceived'
  have hregisters : n₁.folder.registers = n₁'.folder.registers := by
    rw [hreceived.registers_eq, hreceived'.registers_eq]
    refine Registers.putAll_eq (fun x y ↦ Version.lamport_le_of_le) (fun x ↦ ?_) fun x hx y hy ↦ ?_
    · rw [List.mem_filter, List.mem_filter, hsame]
    · exact hversion x (List.mem_filter.mp hx).1 y (List.mem_filter.mp hy).1
  refine ⟨ExtTreeMap.ext_getElem? fun k ↦ ?_, congrArg Registers.clock hregisters,
    hreceived.versionMax⟩
  exact congrFun (congrArg Registers.values hregisters) k

/-! ## Directories from two nodes -/

/-- A directory or a tombstone without a mode. -/
def bare (path : Str) (kind : EntryKind) (version : Version) : Entry :=
  ⟨path, kind, none, none, 0, none, version⟩

/-- Two versions of a directory, a directory in it and a tombstone. -/
def inTurn : List (List (Entry × Option PathBuf)) :=
  [[(bare (lit "d") .dir ⟨1, lit "B"⟩, none), (bare (lit "d/e") .dir ⟨1, lit "C"⟩, none)],
    [(bare (lit "d") .dir ⟨2, lit "C"⟩, none), (bare (lit "t") .tombstone ⟨3, lit "B"⟩, none)]]

/-- The same the other way round, and some of it twice. -/
def outOfTurn : List (List (Entry × Option PathBuf)) :=
  [[(bare (lit "t") .tombstone ⟨3, lit "B"⟩, none)], [(bare (lit "d") .dir ⟨2, lit "C"⟩, none),
    (bare (lit "d/e") .dir ⟨1, lit "C"⟩, none), (bare (lit "d") .dir ⟨1, lit "B"⟩, none)],
    [(bare (lit "t") .tombstone ⟨3, lit "B"⟩, none)]]

theorem exec_applyBatches_of_ok {batches : List (List (Entry × Option PathBuf))} {n : Node W}
    (h : (exec (applyBatches batches) n).1 = .ok ()) :
    exec (applyBatches batches) n = (.ok (), (exec (applyBatches batches) n).2) := by
  rw [← h]

omit [FileSystem W] [Blake3] in
theorem applyBatches_agree_dirs :
    letI : Blake3 := Blake3.reference
    let n := Node.blank [lit "s"] (lit "A") (Posix.Disk.of [([lit "s"], .dir 0o755)] [])
    let n₁ := (exec (applyBatches inTurn) n).2
    let n₂ := (exec (applyBatches outOfTurn) n).2
    n₁.folder.lamport = 3 ∧ n₁.folder.entries = n₂.folder.entries ∧
      n₁.folder.lamport = n₂.folder.lamport ∧
      ∀ k, n.folder.VersionMax (entriesOf inTurn) k n₁.folder.entries[k]? := by
  let _ : Blake3 := Blake3.reference
  intro n n₁ n₂
  have hrun : (exec (applyBatches inTurn) n).1 = .ok () := by decide +kernel
  have hrun' : (exec (applyBatches outOfTurn) n).1 = .ok () := by decide +kernel
  have hbelow : ∀ x ∈ entriesOf inTurn, x.kind ≠ .dir → ∀ y ∈ entriesOf inTurn,
      ¬ SlashPath.Below slash x.path y.path := by decide +kernel
  refine ⟨by decide +kernel, applyBatches_agree rfl (exec_applyBatches_of_ok hrun)
    (exec_applyBatches_of_ok hrun') (fun x ↦ ?_) (by decide +kernel)
    fun x hx hk ↦ ⟨hbelow x hx hk, fun k _ e he ↦ ?_⟩⟩
  · constructor
    · exact (show entriesOf inTurn ⊆ entriesOf outOfTurn by decide +kernel) (a := x)
    · exact (show entriesOf outOfTurn ⊆ entriesOf inTurn by decide +kernel) (a := x)
  · simp [n, Node.blank] at he

end Lilsync
