import Lilsync.Replica.Sound

/-!
# The clock of a release build

In `Lilsync.Replica` the clock is a natural number.  A release build has a `u64`
for it that wraps around.  Here are the functions that increment the clock, as a
release build computes them; taking a maximum is the same for both.  Each function
logs its increments: where the clock stood, and what clocks were in the index.

Where no increment is made at the top the functions are those of
`Lilsync.Replica` (`Agrees`).
-/

namespace Lilsync

open Std (ExtTreeMap)
open Lilsync.Lib

/-! ## Increments -/

/-- An increment of a clock: where the clock stood, and the clocks that were held. -/
structure Tick where
  lamport : Nat
  held : List Nat

namespace Tick

variable {t : Tick}

/-- The clock after the increment. -/
def value (t : Tick) : Nat := (t.lamport + 1) % 2 ^ 64

/-- The clock is now greater than all that were held. -/
def Exceeds (t : Tick) : Prop := ∀ lamport ∈ t.held, lamport < t.value

/-- The clock was not at the top, or nothing was held. -/
def HasRoom (t : Tick) : Prop := t.lamport + 1 < 2 ^ 64 ∨ t.held = []

instance (t : Tick) : Decidable t.Exceeds :=
  inferInstanceAs (Decidable (∀ lamport ∈ t.held, lamport < t.value))

instance (t : Tick) : Decidable t.HasRoom :=
  inferInstanceAs (Decidable (t.lamport + 1 < 2 ^ 64 ∨ t.held = []))

theorem value_eq (h : t.lamport + 1 < 2 ^ 64) : t.value = t.lamport + 1 := Nat.mod_eq_of_lt h

theorem value_lt (t : Tick) : t.value < 2 ^ 64 := Nat.mod_lt _ (Nat.two_pow_pos 64)

theorem HasRoom.exceeds (h : t.HasRoom) (hle : ∀ lamport ∈ t.held, lamport ≤ t.lamport) :
    t.Exceeds := by
  intro lamport hmem
  rcases h with hlt | hnil
  · rw [value_eq hlt]
    exact Nat.lt_succ_of_le (hle lamport hmem)
  · rw [hnil] at hmem
    cases hmem

/-- At the top the clock wraps around to zero. -/
theorem Exceeds.hasRoom (h : t.Exceeds) (hlt : t.lamport < 2 ^ 64) : t.HasRoom := by
  by_cases htop : t.lamport + 1 < 2 ^ 64
  · exact .inl htop
  · have hvalue : t.value = 0 := by
      rw [value, show t.lamport + 1 = 2 ^ 64 by omega, Nat.mod_self]
    refine .inr (List.eq_nil_iff_forall_not_mem.mpr fun lamport hmem ↦ ?_)
    have hpos := h lamport hmem
    rw [hvalue] at hpos
    exact Nat.not_lt_zero _ hpos

end Tick

/-- A replica, the changes collected and the increments made on the way to it, the
latest increment first. -/
structure Ticking where
  replica : Replica
  changes : List Change
  ticks : List Tick

/-- A replica and the changes collected. -/
def Ticking.recorded (st : Ticking) : Recorded := (st.replica, st.changes)

namespace Wrapping

/-! ## The functions that increment the clock -/

/-- An increment of the clock of a replica. -/
def tick (r : Replica) : Tick :=
  ⟨r.lamport, (OrdMap.values r.entries).map fun e ↦ e.version.lamport⟩

/-- `next_version`. -/
def nextVersion (r : Replica) : Version × Replica :=
  let lamport := (tick r).value
  let version : Version := ⟨lamport, r.origin⟩
  (version, { r with lamport, minted := version :: r.minted })

/-- Stamp an entry with the next version, put it in place of `old` and note the
change. -/
def stamp (st : Ticking) (path : Str) (old : Option Entry) (make : Version → Entry) : Ticking :=
  let (version, r) := nextVersion st.replica
  let new := make version
  ⟨r.insert path new, st.changes ++ [⟨path, old, new⟩], tick st.replica :: st.ticks⟩

/-- Turn the entry at a path into a tombstone, unless it is one already. -/
def tombstonePath (st : Ticking) (path : Str) : Ticking :=
  match st.replica.entries[path]? with
  | some old =>
    if old.kind = .tombstone then st else stamp st path (some old) (tombstoneEntry path old)
  | none => st

/-- `tombstone_descendants`. -/
def tombstoneDescendants (relative : Str) (st : Ticking) : Ticking :=
  (st.replica.entries.keys.filter fun p ↦ p = relative ∨ SlashPath.Below slash relative p).foldl
    tombstonePath st

/-- `tombstone_child_descendants`. -/
def tombstoneChildDescendants (relative : Str) (st : Ticking) : Ticking :=
  (st.replica.entries.keys.filter fun p ↦ SlashPath.Below slash relative p).foldl tombstonePath st

/-- `update_entry`. -/
def updateEntry (path : Str) (live : Entry) (st : Ticking) : Ticking :=
  let existing := st.replica.entries[path]?
  if existing.any (sameObservedState · live) then st
  else
    let replacesDirWithNonDir := existing.any (·.kind == .dir) && live.kind != .dir
    let st := stamp st path existing fun version ↦ { live with version }
    if replacesDirWithNonDir then tombstoneChildDescendants path st else st

/-- What `apply_remote_entry_core` does to the index once the entry is on the disk. -/
def recordRemote (remote : Entry) (st : Ticking) : Ticking :=
  let old := st.replica.entries[remote.path]?
  let received : Ticking := ⟨st.replica.receive remote, [], st.ticks⟩
  let buried :=
    if remote.kind ≠ .dir then tombstoneChildDescendants remote.path received else received
  { buried with changes := st.changes ++ ⟨remote.path, old, remote⟩ :: buried.changes }

/-- `merge_gc_watermark` without the saving. -/
def mergeGcWatermark (incoming : GcWatermark) (st : Ticking) : Ticking × Bool × Nat :=
  let (r, changed) := st.replica.raiseGcWatermark incoming
  let (r, pruned) := r.prune
  let st' : Ticking :=
    if 0 < pruned then
      { st with replica := { r with lamport := (tick r).value }, ticks := tick r :: st.ticks }
    else { st with replica := r }
  (st', changed, pruned)

/-- `gc_tombstones_for_converged_root` without the saving. -/
def gcTombstonesForConvergedRoot (st : Ticking) : Ticking × Nat :=
  let watermark := st.replica.tombstoneWatermark
  if watermark.isEmpty then (st, 0)
  else
    let (st, _, pruned) := mergeGcWatermark watermark st
    (st, pruned)

variable {r : Replica} {st st' : Ticking} {remote : Entry} {incoming : GcWatermark}

theorem mem_held_tick {lamport : Nat} : lamport ∈ (tick r).held ↔
    ∃ (k : Str) (e : Entry), r.entries[k]? = some e ∧ e.version.lamport = lamport := by
  simp only [tick, List.mem_map, OrdMap.mem_values_iff]
  constructor
  · rintro ⟨e, ⟨k, hk⟩, rfl⟩
    exact ⟨k, e, hk, rfl⟩
  · rintro ⟨k, e, hk, rfl⟩
    exact ⟨e, ⟨k, hk⟩, rfl⟩

/-! ## The invariant -/

/-- All numbers are `u64`. -/
structure Fits (r : Replica) : Prop where
  lamport_lt : r.lamport < 2 ^ 64
  entries_lt : ∀ (k : Str) (e : Entry), r.entries[k]? = some e → e.version.lamport < 2 ^ 64
  gcWatermark_lt : ∀ (origin : Str) (lamport : Nat), r.gcWatermark[origin]? = some lamport →
    lamport < 2 ^ 64

/-- The clock is at or above every version in the index. -/
def Leads (r : Replica) : Prop :=
  ∀ (k : Str) (e : Entry), r.entries[k]? = some e → e.version.lamport ≤ r.lamport

/-- All numbers are `u64`, and if there was room for every increment so far, then the
clock leads and every increment went above what was held. -/
structure Sound (st : Ticking) : Prop where
  fits : Fits st.replica
  ticks_lt : ∀ t ∈ st.ticks, t.lamport < 2 ^ 64
  rises : (∀ t ∈ st.ticks, t.HasRoom) → Leads st.replica ∧ ∀ t ∈ st.ticks, t.Exceeds

/-- The increments of a sound run all go above what was held exactly if there was room
for each. -/
theorem Sound.exceeds_iff (h : Sound st) :
    (∀ t ∈ st.ticks, t.Exceeds) ↔ ∀ t ∈ st.ticks, t.HasRoom := by
  constructor
  · exact fun hexceeds t ht ↦ (hexceeds t ht).hasRoom (h.ticks_lt t ht)
  · exact fun hroom ↦ (h.rises hroom).2

theorem Leads.exceeds (h : Leads r) (hroom : (tick r).HasRoom) : (tick r).Exceeds := by
  refine hroom.exceeds fun lamport hmem ↦ ?_
  obtain ⟨k, e, hk, rfl⟩ := mem_held_tick.mp hmem
  exact h k e hk

theorem lamport_le_value (h : (tick r).Exceeds) {k : Str} {e : Entry}
    (hk : r.entries[k]? = some e) : e.version.lamport ≤ (tick r).value :=
  (h _ (mem_held_tick.mpr ⟨k, e, hk, rfl⟩)).le

/-- An increment that is logged keeps the log sound, if what it leaves behind fits, and
leads when the increment went above what was held. -/
theorem Sound.increment (h : Sound st) {r' : Replica} {changes : List Change}
    (hlt : r.lamport < 2 ^ 64) (hleads : Leads st.replica → Leads r) (hfits : Fits r')
    (hnext : (tick r).Exceeds → Leads r') : Sound ⟨r', changes, tick r :: st.ticks⟩ := by
  refine ⟨hfits, fun t ht ↦ ?_, fun hroom ↦ ?_⟩
  · rcases List.mem_cons.mp ht with rfl | ht
    · exact hlt
    · exact h.ticks_lt t ht
  · obtain ⟨hold, hticks⟩ := h.rises fun t ht ↦ hroom t (List.mem_cons_of_mem _ ht)
    have hexceeds : (tick r).Exceeds :=
      (hleads hold).exceeds (hroom _ List.mem_cons_self)
    refine ⟨hnext hexceeds, fun t ht ↦ ?_⟩
    rcases List.mem_cons.mp ht with rfl | ht
    · exact hexceeds
    · exact hticks t ht

/-- A replica that changes without an increment. -/
theorem Sound.quiet (h : Sound st) {changes : List Change} (hfits : Fits r)
    (hleads : Leads st.replica → Leads r) : Sound ⟨r, changes, st.ticks⟩ :=
  ⟨hfits, h.ticks_lt, fun hroom ↦ (h.rises hroom).imp hleads id⟩

/-! ## Stamping keeps it -/

theorem Sound.stamp (h : Sound st) (path : Str) (old : Option Entry) {make : Version → Entry}
    (hversion : ∀ v, (make v).version = v) : Sound (stamp st path old make) := by
  have hentry : ∀ (k : Str) (e : Entry),
      (st.replica.entries.insert path (make (nextVersion st.replica).1))[k]? = some e →
      e.version.lamport = (tick st.replica).value ∨ st.replica.entries[k]? = some e := by
    intro k e he
    rw [OrdMap.getElem?_insert_eq] at he
    split at he
    · obtain rfl := Option.some.inj he
      exact .inl (by rw [hversion]; rfl)
    · exact .inr he
  refine h.increment h.fits.lamport_lt id ⟨Tick.value_lt _, fun k e he ↦ ?_, h.fits.gcWatermark_lt⟩
    fun hexceeds k e he ↦ ?_
  · rcases hentry k e he with hv | hold
    · rw [hv]
      exact Tick.value_lt _
    · exact h.fits.entries_lt k e hold
  · rcases hentry k e he with hv | hold
    · rw [hv]
      exact le_rfl
    · exact lamport_le_value hexceeds hold

theorem Sound.tombstonePath (h : Sound st) (path : Str) : Sound (tombstonePath st path) := by
  rw [Wrapping.tombstonePath]
  split
  · split
    · exact h
    · exact h.stamp path _ fun _ ↦ rfl
  · exact h

theorem Sound.foldl_tombstonePath (h : Sound st) (l : List Str) :
    Sound (l.foldl Wrapping.tombstonePath st) := by
  induction l generalizing st with
  | nil => exact h
  | cons path l ih => exact ih (h.tombstonePath path)

theorem Sound.tombstoneDescendants (h : Sound st) (relative : Str) :
    Sound (tombstoneDescendants relative st) := h.foldl_tombstonePath _

theorem Sound.tombstoneChildDescendants (h : Sound st) (relative : Str) :
    Sound (tombstoneChildDescendants relative st) := h.foldl_tombstonePath _

theorem Sound.updateEntry (h : Sound st) (path : Str) (live : Entry) :
    Sound (updateEntry path live st) := by
  rw [Wrapping.updateEntry]
  dsimp only
  split
  · exact h
  · have hversion : ∀ version, ({ live with version } : Entry).version = version := fun _ ↦ rfl
    have hstamp := h.stamp path st.replica.entries[path]? hversion
    split
    · exact hstamp.tombstoneChildDescendants path
    · exact hstamp

/-! ## Receiving and collecting keep it -/

theorem Sound.recordRemote (h : Sound st) (hfits : remote.version.lamport < 2 ^ 64) :
    Sound (recordRemote remote st) := by
  have hentry : ∀ (k : Str) (e : Entry), (st.replica.receive remote).entries[k]? = some e →
      e = remote ∨ st.replica.entries[k]? = some e := by
    intro k e he
    rw [Replica.getElem?_receive] at he
    split at he
    · exact .inl (Option.some.inj he).symm
    · exact .inr he
  have hreceived : Sound ⟨st.replica.receive remote, [], st.ticks⟩ := by
    refine h.quiet ⟨max_lt h.fits.lamport_lt hfits, fun k e he ↦ ?_, h.fits.gcWatermark_lt⟩
      fun hleads k e he ↦ ?_
    · rcases hentry k e he with rfl | hold
      · exact hfits
      · exact h.fits.entries_lt k e hold
    · rcases hentry k e he with rfl | hold
      · exact Nat.le_max_right _ _
      · exact (hleads k e hold).trans (Nat.le_max_left _ _)
  rw [Wrapping.recordRemote]
  split
  · have hburied := hreceived.tombstoneChildDescendants remote.path
    exact ⟨hburied.fits, hburied.ticks_lt, hburied.rises⟩
  · exact ⟨hreceived.fits, hreceived.ticks_lt, hreceived.rises⟩

/-- Raising the watermark keeps all numbers within `u64`. -/
theorem Fits.raiseGcWatermark (h : Fits r)
    (hfits : ∀ (origin : Str) (lamport : Nat), incoming[origin]? = some lamport → lamport < 2 ^ 64) :
    Fits (r.raiseGcWatermark incoming).1 := by
  have hmerged : ∀ (origin : Str) (lamport : Nat),
      (r.mergeWatermark incoming).1.gcWatermark[origin]? = some lamport → lamport < 2 ^ 64 := by
    intro origin lamport hl
    rcases Replica.of_getElem?_mergeWatermark hl with hold | hnew
    · exact h.gcWatermark_lt origin lamport hold
    · exact hfits origin lamport hnew
  have hmerge : Fits (r.mergeWatermark incoming).1 := ⟨h.lamport_lt, h.entries_lt, hmerged⟩
  rw [Replica.raiseGcWatermark]
  dsimp only
  split
  · rw [Replica.catchUp]
    split
    · refine ⟨?_, hmerge.entries_lt, hmerged⟩
      change (r.mergeWatermark incoming).1.ownWatermark < 2 ^ 64
      rw [Replica.ownWatermark]
      cases hown : (r.mergeWatermark incoming).1.gcWatermark[(r.mergeWatermark incoming).1.origin]? with
      | none => exact Nat.two_pow_pos 64
      | some lamport => exact hmerged _ lamport hown
    · exact hmerge
  · exact hmerge

theorem Fits.prune (h : Fits r) : Fits r.prune.1 :=
  ⟨h.lamport_lt, fun k e he ↦ h.entries_lt k e ((Replica.getElem?_prune r k e).mp he).1,
    h.gcWatermark_lt⟩

theorem Leads.prune (h : Leads r) : Leads r.prune.1 :=
  fun k e he ↦ h k e ((Replica.getElem?_prune r k e).mp he).1

theorem Leads.raiseGcWatermark (h : Leads r) : Leads (r.raiseGcWatermark incoming).1 := by
  intro k e he
  rw [Replica.entries_raiseGcWatermark] at he
  exact (h k e he).trans Replica.lamport_le_raiseGcWatermark

theorem Sound.mergeGcWatermark (h : Sound st)
    (hfits : ∀ (origin : Str) (lamport : Nat), incoming[origin]? = some lamport → lamport < 2 ^ 64) :
    Sound (mergeGcWatermark incoming st).1 := by
  have hpruned : Fits (st.replica.raiseGcWatermark incoming).1.prune.1 :=
    (h.fits.raiseGcWatermark hfits).prune
  have hleads : Leads st.replica → Leads (st.replica.raiseGcWatermark incoming).1.prune.1 :=
    fun hl ↦ hl.raiseGcWatermark.prune
  rw [Wrapping.mergeGcWatermark]
  dsimp only
  split
  · refine h.increment hpruned.lamport_lt hleads
      ⟨Tick.value_lt _, hpruned.entries_lt, hpruned.gcWatermark_lt⟩ fun hexceeds k e he ↦ ?_
    exact lamport_le_value hexceeds he
  · exact h.quiet hpruned hleads

/-- The watermark built from the tombstones is within `u64`. -/
theorem Fits.tombstoneWatermark (h : Fits r) (origin : Str) (lamport : Nat)
    (hl : r.tombstoneWatermark[origin]? = some lamport) : lamport < 2 ^ 64 := by
  obtain ⟨k, e, he, -, hv⟩ := Replica.of_getElem?_tombstoneWatermark hl
  have hlt := h.entries_lt k e he
  rwa [hv] at hlt

theorem Sound.gcTombstonesForConvergedRoot (h : Sound st) :
    Sound (gcTombstonesForConvergedRoot st).1 := by
  rw [Wrapping.gcTombstonesForConvergedRoot]
  dsimp only
  split
  · exact h
  · exact h.mergeGcWatermark h.fits.tombstoneWatermark

/-! ## Below the top -/

/-- No increment was made at the top. -/
def BelowTop (st : Ticking) : Prop := ∀ t ∈ st.ticks, t.lamport + 1 < 2 ^ 64

/-- A function adds to the log, and as long as no increment is made at the top it is the
given function of `Lilsync.Replica`. -/
structure Agrees (f : Ticking → Ticking) (g : Recorded → Recorded) : Prop where
  grows : ∀ st, st.ticks ⊆ (f st).ticks
  recorded_eq : ∀ st, BelowTop (f st) → (f st).recorded = g st.recorded

namespace Agrees

variable {f f' : Ticking → Ticking} {g g' : Recorded → Recorded}

theorem id : Agrees id id := ⟨fun st ↦ List.Subset.refl st.ticks, fun _ _ ↦ rfl⟩

theorem comp (h' : Agrees f' g') (h : Agrees f g) : Agrees (f' ∘ f) (g' ∘ g) where
  grows st := List.Subset.trans (h.grows st) (h'.grows (f st))
  recorded_eq st htop := by
    have hbelow : BelowTop (f st) := fun t ht ↦ htop t (h'.grows (f st) ht)
    calc ((f' ∘ f) st).recorded = g' (f st).recorded := h'.recorded_eq (f st) htop
      _ = (g' ∘ g) st.recorded := congrArg g' (h.recorded_eq st hbelow)

theorem foldl {α : Type} {f : Ticking → α → Ticking} {g : Recorded → α → Recorded}
    (h : ∀ a, Agrees (fun st ↦ f st a) (fun st ↦ g st a)) (l : List α) :
    Agrees (fun st ↦ l.foldl f st) (fun st ↦ l.foldl g st) := by
  induction l with
  | nil => exact .id
  | cons a l ih => exact ih.comp (h a)

end Agrees

theorem agrees_stamp (path : Str) (old : Option Entry) (make : Version → Entry) :
    Agrees (fun st ↦ stamp st path old make) (fun st ↦ Replica.stamp st path old make) where
  grows st := List.subset_cons_self _ st.ticks
  recorded_eq st htop := by
    have hvalue : (tick st.replica).value = st.replica.lamport + 1 :=
      Tick.value_eq (htop (tick st.replica) List.mem_cons_self)
    have hnext : nextVersion st.replica = st.replica.nextVersion := by
      rw [nextVersion, Replica.nextVersion, hvalue]
    rw [stamp, Replica.stamp, hnext]
    rfl

theorem agrees_tombstonePath (path : Str) :
    Agrees (fun st ↦ tombstonePath st path) (fun st ↦ Replica.tombstonePath st path) := by
  refine ⟨fun st ↦ ?_, fun st htop ↦ ?_⟩
  · rw [tombstonePath]
    split
    · split
      · exact List.Subset.refl _
      · exact (agrees_stamp path _ _).grows st
    · exact List.Subset.refl _
  · rw [Replica.tombstonePath]
    rw [tombstonePath] at htop ⊢
    dsimp only [Ticking.recorded]
    cases hold : st.replica.entries[path]? with
    | none => rfl
    | some old =>
      simp only [hold] at htop
      dsimp only
      split
      · rfl
      · next hkind =>
        rw [if_neg hkind] at htop
        exact (agrees_stamp path (some old) _).recorded_eq st htop

theorem agrees_tombstoneDescendants (relative : Str) :
    Agrees (tombstoneDescendants relative) (Replica.tombstoneDescendants relative) where
  grows st := (Agrees.foldl agrees_tombstonePath _).grows st
  recorded_eq st := (Agrees.foldl agrees_tombstonePath _).recorded_eq st

theorem agrees_tombstoneChildDescendants (relative : Str) :
    Agrees (tombstoneChildDescendants relative) (Replica.tombstoneChildDescendants relative) where
  grows st := (Agrees.foldl agrees_tombstonePath _).grows st
  recorded_eq st := (Agrees.foldl agrees_tombstonePath _).recorded_eq st

theorem agrees_updateEntry (path : Str) (live : Entry) :
    Agrees (updateEntry path live) (Replica.updateEntry path live) := by
  have hstamp (old : Option Entry) := agrees_stamp path old fun version ↦ { live with version }
  have hburied (old : Option Entry) := (agrees_tombstoneChildDescendants path).comp (hstamp old)
  refine ⟨fun st ↦ ?_, fun st htop ↦ ?_⟩
  · rw [updateEntry]
    dsimp only
    split
    · exact List.Subset.refl _
    · split
      · exact (hburied _).grows st
      · exact (hstamp _).grows st
  · change (updateEntry path live st).recorded =
      Replica.updateEntry path live (st.replica, st.changes)
    rw [Replica.updateEntry]
    rw [updateEntry] at htop ⊢
    dsimp only at htop ⊢
    by_cases hsame : st.replica.entries[path]?.any (sameObservedState · live)
    · simp only [if_pos hsame]
      rfl
    · simp only [if_neg hsame] at htop ⊢
      by_cases hreplaces :
          (st.replica.entries[path]?.any (·.kind == .dir) && live.kind != .dir) = true
      · simp only [if_pos hreplaces] at htop ⊢
        exact (hburied _).recorded_eq st htop
      · simp only [if_neg hreplaces] at htop ⊢
        exact (hstamp _).recorded_eq st htop

theorem agrees_recordRemote (remote : Entry) : Agrees (recordRemote remote) fun st ↦
    ((Replica.recordRemote st.1 remote).1, st.2 ++ (Replica.recordRemote st.1 remote).2) := by
  have hburied := agrees_tombstoneChildDescendants remote.path
  refine ⟨fun st ↦ ?_, fun st htop ↦ ?_⟩
  · rw [recordRemote]
    split
    · exact hburied.grows ⟨st.replica.receive remote, [], st.ticks⟩
    · exact List.Subset.refl _
  · rw [Replica.recordRemote]
    rw [recordRemote] at htop ⊢
    by_cases hkind : remote.kind ≠ .dir
    · simp only [if_pos hkind] at htop ⊢
      have heq := hburied.recorded_eq ⟨st.replica.receive remote, [], st.ticks⟩ htop
      change _ = ((Replica.tombstoneChildDescendants remote.path
        (st.replica.receive remote, [])).1, st.changes ++ ⟨remote.path, _, remote⟩ ::
          (Replica.tombstoneChildDescendants remote.path (st.replica.receive remote, [])).2)
      rw [show (st.replica.receive remote, ([] : List Change)) =
        (Ticking.mk (st.replica.receive remote) [] st.ticks).recorded from rfl, ← heq]
      rfl
    · simp only [if_neg hkind]
      rfl

theorem agrees_mergeGcWatermark (incoming : GcWatermark) :
    Agrees (fun st ↦ (mergeGcWatermark incoming st).1)
      (fun st ↦ ((st.1.mergeGcWatermark incoming).1, st.2)) := by
  refine ⟨fun st ↦ ?_, fun st htop ↦ ?_⟩
  · rw [mergeGcWatermark]
    dsimp only
    split
    · exact List.subset_cons_self _ _
    · exact List.Subset.refl _
  · change (mergeGcWatermark incoming st).1.recorded =
      ((st.replica.mergeGcWatermark incoming).1, st.changes)
    rw [Replica.mergeGcWatermark]
    rw [mergeGcWatermark] at htop ⊢
    dsimp only at htop ⊢
    by_cases hpruned : 0 < (st.replica.raiseGcWatermark incoming).1.prune.2
    · simp only [if_pos hpruned] at htop ⊢
      rw [Tick.value_eq (htop _ List.mem_cons_self)]
      rfl
    · simp only [if_neg hpruned]
      rfl

end Wrapping

end Lilsync
