import Lilsync.Group.Views
import Lilsync.Replica.Wrapping
import Lilsync.State.Sound

/-!
# What peers can do to the clocks

A node takes over clocks from entries, watermarks and members that peers send,
whatever they are, and then increments them.  An increment goes above everything
that is held unless the clock is at the top of `u64` (`exceeds_iff_hasRoom`); an
entry from a peer can put it there.
-/

namespace Lilsync

open Std (ExtTreeMap)
open Lilsync.Lib

/-! ## The clock of the ledger -/

/-- The largest clock of a ledger. -/
def maxMemberLamport (members : Members) : UInt64 :=
  (OrdMap.values members).foldl (fun m e ↦ max m e.lamport) 0

/-- The increment in `next_lamport`. -/
def ledgerTick (members : Members) : Tick :=
  ⟨(maxMemberLamport members).toNat, (OrdMap.values members).map fun e ↦ e.lamport.toNat⟩

theorem nextLamport_toNat (members : Members) :
    (nextLamport members).toNat = (ledgerTick members).value := by
  rw [nextLamport, UInt64.toNat_add]
  rfl

theorem le_max (a b : UInt64) : a ≤ max a b ∧ b ≤ max a b := by
  change a ≤ ite _ _ _ ∧ b ≤ ite _ _ _
  split
  · next h => exact ⟨h, UInt64.le_refl b⟩
  · next h => exact ⟨UInt64.le_refl a, (UInt64.le_total a b).resolve_left h⟩

theorem le_maxMemberLamport {members : Members} {e : MemberEntry}
    (h : e ∈ OrdMap.values members) : e.lamport ≤ maxMemberLamport members := by
  have hfold : ∀ (l : List MemberEntry) (m : UInt64),
      m ≤ l.foldl (fun m e ↦ max m e.lamport) m ∧
      ∀ e ∈ l, e.lamport ≤ l.foldl (fun m e ↦ max m e.lamport) m := by
    intro l
    induction l with
    | nil => exact fun m ↦ ⟨UInt64.le_refl m, by simp⟩
    | cons x l ih =>
      intro m
      obtain ⟨hm, hl⟩ := ih (max m x.lamport)
      refine ⟨UInt64.le_trans (le_max _ _).1 hm, fun e he ↦ ?_⟩
      rcases List.mem_cons.mp he with rfl | he
      · exact UInt64.le_trans (le_max _ _).2 hm
      · exact hl e he
  exact (hfold _ 0).2 e h

/-- The clock of the ledger is the largest there, so an increment goes above all if there
is room. -/
theorem ledgerTick_exceeds {members : Members} (h : (ledgerTick members).HasRoom) :
    (ledgerTick members).Exceeds := by
  refine h.exceeds fun lamport hmem ↦ ?_
  obtain ⟨e, he, rfl⟩ := List.mem_map.mp hmem
  exact UInt64.le_iff_toNat_le.mp (le_maxMemberLamport he)

namespace GroupState

/-- The increments `load_or_init` makes. -/
def loadTicks (localId : NodeId) (file : PeersFile) : List Tick :=
  let start (members : Members) : List Tick :=
    if localId.toText ∈ members then [] else [ledgerTick members]
  match file with
  | .missing => start ∅
  | .loaded members => start (ExtTreeMap.ofList (members.map fun e ↦ (e.id, e)))
  | .unreadable _ | .invalid => []

/-- The increments a method of the ledger makes. -/
def actTicks (g : GroupState) : Act → List Tick
  | .add _ => [ledgerTick g.members]
  | .remove target =>
    match g.memberList.find? fun e ↦ e.id = target with
    | none => []
    | some e => if e.id = g.localId then [] else [ledgerTick g.members]
  | .merge _ => []

/-- Every increment of the ledger is one of `next_lamport`. -/
theorem exists_of_mem_loadTicks {localId : NodeId} {file : PeersFile} {t : Tick}
    (h : t ∈ loadTicks localId file) : ∃ members, t = ledgerTick members := by
  have hstart : ∀ members : Members,
      t ∈ (if localId.toText ∈ members then [] else [ledgerTick members]) →
      ∃ members, t = ledgerTick members := by
    intro members ht
    split at ht
    · cases ht
    · exact ⟨members, List.mem_singleton.mp ht⟩
  cases file with
  | missing => exact hstart ∅ h
  | loaded members =>
    rw [loadTicks] at h
    exact hstart _ h
  | unreadable err => cases h
  | invalid => cases h

theorem exists_of_mem_actTicks {g : GroupState} {act : Act} {t : Tick}
    (h : t ∈ g.actTicks act) : ∃ members, t = ledgerTick members := by
  cases act with
  | add peer => exact ⟨_, List.mem_singleton.mp h⟩
  | remove target =>
    rw [actTicks] at h
    split at h
    · cases h
    · split at h
      · cases h
      · exact ⟨_, List.mem_singleton.mp h⟩
  | merge incoming => cases h

end GroupState

/-! ## The clocks of a node -/

/-- The index and the ledger of a node, with the increments of both clocks. -/
structure ClockSystem where
  folder : Ticking
  ledger : GroupState

/-- What moves the clocks: what the node finds in its folder, what peers send, and the
methods of the ledger. -/
inductive ClockAct where
  | updateEntry (path : Str) (live : Entry)
  | tombstonePath (path : Str)
  | tombstoneDescendants (relative : Str)
  | applyRemoteEntry (remote : Entry)
  | mergeGcWatermark (incoming : GcWatermark)
  | gcTombstonesForConvergedRoot
  | ledger (act : GroupState.Act) (saved : IoResult Unit)

/-- The clocks that come from outside are `u64`. -/
def ClockAct.Fits : ClockAct → Prop
  | .applyRemoteEntry remote => remote.version.lamport < 2 ^ 64
  | .mergeGcWatermark incoming =>
    ∀ (origin : Str) (lamport : Nat), incoming[origin]? = some lamport → lamport < 2 ^ 64
  | _ => True

/-- The numbers in the state files are `u64`. -/
structure Store.Fits (store : Store) : Prop where
  lamport_lt : store.lamport.getD 0 < 2 ^ 64
  gcWatermark_lt : ∀ (origin : Str) (lamport : Nat),
    (store.gcWatermark.getD ∅)[origin]? = some lamport → lamport < 2 ^ 64
  entries_lt : ∀ (k : Str) (e : Entry), (store.entries.getD ∅)[k]? = some e →
    e.version.lamport < 2 ^ 64

namespace ClockSystem

variable [Blake3]

/-- The node after an action. -/
def run (s : ClockSystem) : ClockAct → ClockSystem
  | .updateEntry path live => { s with folder := Wrapping.updateEntry path live s.folder }
  | .tombstonePath path => { s with folder := Wrapping.tombstonePath s.folder path }
  | .tombstoneDescendants relative =>
    { s with folder := Wrapping.tombstoneDescendants relative s.folder }
  | .applyRemoteEntry remote =>
    if s.folder.replica.shouldAcceptRemote remote then
      { s with folder := Wrapping.recordRemote remote s.folder }
    else s
  | .mergeGcWatermark incoming =>
    { s with folder := (Wrapping.mergeGcWatermark incoming s.folder).1 }
  | .gcTombstonesForConvergedRoot =>
    { s with folder := (Wrapping.gcTombstonesForConvergedRoot s.folder).1 }
  | .ledger act saved =>
    { folder := { s.folder with ticks := s.ledger.actTicks act ++ s.folder.ticks }
      ledger := s.ledger.act saved act }

/-- A node that starts, from whatever files. -/
def Started (s : ClockSystem) : Prop :=
  ∃ root origin store entries localId file saved, store.Fits ∧
    loadSavedEntries store.entries = .ok entries ∧
    s.folder = ⟨FolderState.loaded root origin store entries [], [],
      GroupState.loadTicks localId file⟩ ∧
    GroupState.loadOrInit localId file saved = .ok s.ledger

/-- The runs of a node, with anything that peers can send. -/
def machine : Machine ClockSystem where
  init := Started
  step s s' := ∃ act : ClockAct, act.Fits ∧ s' = s.run act

/-! ## Every run -/

omit [Blake3] in
/-- More increments of the ledger. -/
theorem sound_append {st : Ticking} (h : Wrapping.Sound st) {ticks : List Tick}
    (hticks : ∀ t ∈ ticks, ∃ members, t = ledgerTick members) :
    Wrapping.Sound { st with ticks := ticks ++ st.ticks } := by
  refine ⟨h.fits, fun t ht ↦ ?_, fun hroom ↦ ?_⟩
  · rcases List.mem_append.mp ht with ht | ht
    · obtain ⟨members, rfl⟩ := hticks t ht
      exact (maxMemberLamport members).toNat_lt
    · exact h.ticks_lt t ht
  · refine (h.rises fun t ht ↦ hroom t (List.mem_append_right _ ht)).imp id fun hold t ht ↦ ?_
    rcases List.mem_append.mp ht with hnew | ht
    · obtain ⟨members, rfl⟩ := hticks t hnew
      exact ledgerTick_exceeds (hroom _ ht)
    · exact hold t ht

omit [Blake3] in
theorem maxEntryLamport_lt {entries : Index}
    (h : ∀ (k : Str) (e : Entry), entries[k]? = some e → e.version.lamport < 2 ^ 64) :
    maxEntryLamport entries < 2 ^ 64 := by
  refine List.foldlRecOn (OrdMap.values entries) _ (motive := fun m ↦ m < 2 ^ 64)
    (Nat.two_pow_pos 64) fun m hm e he ↦ ?_
  obtain ⟨k, hk⟩ := OrdMap.mem_values_iff.mp he
  exact max_lt hm (h k e hk)

/-- What `FolderState::new` starts from. -/
theorem sound_started {s : ClockSystem} (h : Started s) : Wrapping.Sound s.folder := by
  obtain ⟨root, origin, store, entries, localId, file, saved, hfits, hload, hfolder, -⟩ := h
  have hentries : ∀ (k : Str) (e : Entry), entries[k]? = some e → e.version.lamport < 2 ^ 64 := by
    have hlt := hfits.entries_lt
    cases hs : store.entries with
    | missing =>
      rw [hs] at hload
      obtain rfl := Except.ok.inj hload
      simp
    | corrupt =>
      rw [hs] at hload
      cases hload
    | saved index =>
      rw [hs] at hload hlt
      obtain rfl := Except.ok.inj hload
      exact hlt
  have hown : (store.gcWatermark.getD ∅)[origin]?.getD 0 < 2 ^ 64 := by
    cases hw : (store.gcWatermark.getD ∅)[origin]? with
    | none => exact Nat.two_pow_pos 64
    | some lamport => exact hfits.gcWatermark_lt origin lamport hw
  have hloaded : Wrapping.Fits (FolderState.load root origin store entries []).toReplica :=
    ⟨max_lt (max_lt hfits.lamport_lt (maxEntryLamport_lt hentries)) hown, hentries,
      hfits.gcWatermark_lt⟩
  have hsound : Wrapping.Sound ⟨FolderState.loaded root origin store entries [], [], []⟩ := by
    refine ⟨hloaded.prune, by simp, fun _ ↦ ⟨?_, by simp⟩⟩
    exact (sound_loaded root origin store entries []).lamport_le
  rw [hfolder, ← List.append_nil (GroupState.loadTicks localId file)]
  exact sound_append hsound fun t ht ↦ GroupState.exists_of_mem_loadTicks ht

omit [Blake3] in
theorem sound_run {s : ClockSystem} (h : Wrapping.Sound s.folder) {act : ClockAct}
    (hfits : act.Fits) : Wrapping.Sound (s.run act).folder := by
  cases act with
  | updateEntry path live => exact h.updateEntry path live
  | tombstonePath path => exact h.tombstonePath path
  | tombstoneDescendants relative => exact h.tombstoneDescendants relative
  | applyRemoteEntry remote =>
    rw [run]
    split
    · exact h.recordRemote hfits
    · exact h
  | mergeGcWatermark incoming => exact h.mergeGcWatermark hfits
  | gcTombstonesForConvergedRoot => exact h.gcTombstonesForConvergedRoot
  | ledger act saved => exact sound_append h fun t ht ↦ GroupState.exists_of_mem_actTicks ht

theorem wrappingSound_of_reachable {s : ClockSystem} (h : machine.Reachable s) :
    Wrapping.Sound s.folder := by
  refine h.invariant (I := fun s ↦ Wrapping.Sound s.folder) (fun s ↦ sound_started) ?_
  rintro s s' - hs ⟨act, hfits, rfl⟩
  exact sound_run hs hfits

/-- A node that starts in a folder that was never synced. -/
def fresh (ledger : GroupState) : ClockSystem where
  folder := ⟨FolderState.loaded [lit "s"] (lit "A") Store.blank ∅ [], [],
    GroupState.loadTicks (GroupState.exampleId 1) .missing⟩
  ledger := ledger

theorem started_fresh {ledger : GroupState}
    (h : GroupState.loadOrInit (GroupState.exampleId 1) .missing (.ok ()) = .ok ledger) :
    Started (fresh ledger) := by
  refine ⟨[lit "s"], lit "A", Store.blank, ∅, GroupState.exampleId 1, .missing, .ok (), ?_, rfl, rfl, h⟩
  exact ⟨Nat.two_pow_pos 64, by simp [Store.blank, Saved.getD], by simp [Store.blank, Saved.getD]⟩

/-- A file a peer has, with the clock it says. -/
def remoteFile (lamport : Nat) : Entry :=
  ⟨lit "f", .file, some (Vector.replicate 32 0), none, 1, none, ⟨lamport, lit "B"⟩⟩

/-- The node learns of the file of a peer and then finds a directory of its own. -/
def afterRemote (s : ClockSystem) (lamport : Nat) : ClockSystem :=
  (s.run (.applyRemoteEntry (remoteFile lamport))).run
    (.updateEntry (lit "g") (liveEntry (lit "g") .dir none none 0 none))

theorem reachable_afterRemote {s : ClockSystem} (h : Started s) (lamport : Nat)
    (hlt : lamport < 2 ^ 64) : machine.Reachable (s.afterRemote lamport) :=
  .step (.step (.init h) ⟨.applyRemoteEntry (remoteFile lamport), hlt, rfl⟩)
    ⟨.updateEntry (lit "g") (liveEntry (lit "g") .dir none none 0 none), trivial, rfl⟩

end ClockSystem

end Lilsync
