import Lilsync.Daemon.Overflow
import Lilsync.Group.Removal

/-!
# The ledger of a node over its runs

A ledger, with the file it is saved in, through any sequence of restarts and
methods.  As long as the clock of the ledger has room, no member's clock goes
back, and a member that is removed stays removed unless it is added here or a
newer entry for it is merged (`removal_sticks`).
-/

namespace Lilsync

open Std (ExtTreeMap)
open Lilsync.Lib

/-- A ledger and what is at the path of `peers.json`. -/
structure LedgerOnDisk where
  group : GroupState
  file : PeersFile

/-- What happens to a ledger: the process restarts, or a method is called. -/
inductive LedgerOp where
  | restart
  | act (act : GroupState.Act)

namespace LedgerOnDisk

/-- The method has something to save. -/
def saves (g : GroupState) : GroupState.Act → Bool
  | .add peer => (g.addActivePeer peer (.ok ())).1.toOption == some true
  | .remove target => (g.removePeer target (.ok ())).1.toOption.any Option.isSome
  | .merge incoming => (g.mergeMembers incoming (.ok ())).1.toOption.any MemberMerge.changed

/-- What an operation leads to; saving succeeds. -/
def next (localId : NodeId) (s : LedgerOnDisk) : LedgerOp → Option LedgerOnDisk
  | .restart =>
    match GroupState.loadOrInit localId s.file (.ok ()) with
    | .ok group => some ⟨group, savePeersFile group.members⟩
    | .error _ => none
  | .act a =>
    let group := s.group.act (.ok ()) a
    some ⟨group, if saves s.group a then savePeersFile group.members else s.file⟩

/-- The increments an operation makes. -/
def ticks (localId : NodeId) (s : LedgerOnDisk) : LedgerOp → List Tick
  | .restart => GroupState.loadTicks localId s.file
  | .act a => s.group.actTicks a

/-- `next_lamport` does not overflow. -/
def HasRoom (localId : NodeId) (s : LedgerOnDisk) (op : LedgerOp) : Prop :=
  ∀ t ∈ s.ticks localId op, t.HasRoom

instance (localId : NodeId) (s : LedgerOnDisk) (op : LedgerOp) : Decidable (s.HasRoom localId op) :=
  inferInstanceAs (Decidable (∀ t ∈ s.ticks localId op, t.HasRoom))

/-- A ledger as `load_or_init` has built and saved it, or a method has left it. -/
structure Persisted (localId : NodeId) (s : LedgerOnDisk) : Prop where
  keyed : GroupState.Keyed s.group.members
  localId_eq : s.group.localId = localId.toText
  file_eq : s.file = savePeersFile s.group.members

/-- No member is lost, and no clock goes back. -/
def Ascends (members members' : Members) : Prop :=
  ∀ (id : Str) (e : MemberEntry), members[id]? = some e →
    ∃ e' : MemberEntry, members'[id]? = some e' ∧ e.lamport ≤ e'.lamport

/-- The member is removed, with this clock or a later one. -/
def RemovedSince (m : Str) (lamport : UInt64) (members : Members) : Prop :=
  ∃ e : MemberEntry, members[m]? = some e ∧ e.status = .removed ∧ lamport ≤ e.lamport

/-- The operation adds the member, or merges an entry for it with a later clock. -/
def Brings (m : Str) (lamport : UInt64) : LedgerOp → Prop
  | .act (.add peer) => peer.toText = m
  | .act (.merge incoming) => ∃ e ∈ incoming, e.id = m ∧ lamport < e.lamport
  | _ => False

variable {localId : NodeId} {s s' s'' : LedgerOnDisk} {op : LedgerOp} {ops ops' : List LedgerOp}
  {m : Str} {lamport : UInt64} {members members' members'' : Members}

/-! ## Clocks -/

theorem Ascends.refl (members : Members) : Ascends members members :=
  fun _ e he ↦ ⟨e, he, UInt64.le_refl _⟩

theorem Ascends.trans (h : Ascends members members') (h' : Ascends members' members'') :
    Ascends members members'' := by
  intro id e he
  obtain ⟨e', he', hle⟩ := h id e he
  obtain ⟨e'', he'', hle'⟩ := h' id e' he'
  exact ⟨e'', he'', UInt64.le_trans hle hle'⟩

/-- An entry whose clock is not before that of its member. -/
theorem Ascends.insert {k : Str} {e : MemberEntry}
    (hle : ∀ own : MemberEntry, members[k]? = some own → own.lamport ≤ e.lamport) :
    Ascends members (members.insert k e) := by
  intro id own hown
  rw [OrdMap.getElem?_insert_eq]
  split
  · next heq => exact ⟨e, rfl, hle own (heq ▸ hown)⟩
  · exact ⟨own, hown, UInt64.le_refl _⟩

theorem ascends_takeOver (members : Members) (e : MemberEntry) :
    Ascends members (GroupState.takeOver members e) := by
  rw [GroupState.takeOver]
  split
  · next happ =>
    refine .insert fun own hown ↦ UInt64.le_of_lt ?_
    have hall := (Bool.and_eq_true_iff.mp happ).2
    rw [hown] at hall
    exact of_decide_eq_true hall
  · exact .refl members

theorem ascends_foldl_takeOver (incoming : List MemberEntry) (members : Members) :
    Ascends members (incoming.foldl GroupState.takeOver members) := by
  induction incoming generalizing members with
  | nil => exact .refl members
  | cons e incoming ih => exact (ascends_takeOver members e).trans (ih _)

/-- `next_lamport` goes above every clock of the ledger. -/
theorem lt_nextLamport (h : (ledgerTick members).HasRoom) {id : Str} {e : MemberEntry}
    (he : members[id]? = some e) : e.lamport < nextLamport members := by
  rw [UInt64.lt_iff_toNat_lt, nextLamport_toNat]
  exact ledgerTick_exceeds h _ (List.mem_map_of_mem (OrdMap.mem_values_iff.mpr ⟨id, he⟩))

/-! ## The operations -/

/-- What a restart does to the ledger: it may add the local node. -/
theorem Persisted.restart (hs : s.Persisted localId) (hnext : s.next localId .restart = some s') :
    s'.Persisted localId ∧
      ∀ (id : Str) (e : MemberEntry), s.group.members[id]? = some e →
        s'.group.members[id]? = some e := by
  rw [next] at hnext
  split at hnext
  · next group hload =>
    obtain rfl := Option.some.inj hnext
    obtain ⟨hkeyed, hlocal⟩ := LedgerSystem.keyed_loadOrInit hload
    refine ⟨⟨hkeyed, hlocal, rfl⟩, fun id e he ↦ ?_⟩
    rw [hs.file_eq] at hload
    by_cases hid : id = localId.toText
    · -- the local node is in the file, so it is not added again
      have hfile := LedgerSystem.getElem?_ofList_savePeersFile hs.keyed id
      rw [savePeersFile, PeersFile.entries, he] at hfile
      rw [savePeersFile, GroupState.loadOrInit] at hload
      obtain rfl := Except.ok.inj hload
      dsimp only
      rw [if_pos (ExtTreeMap.mem_iff_isSome_getElem?.mpr (hid ▸ hfile ▸ rfl)), hfile]
    · rw [LedgerSystem.getElem?_loadOrInit_savePeersFile hs.keyed hload hid, he]
  · cases hnext

/-- A method that has nothing to save has changed nothing. -/
theorem act_of_not_saves {g : GroupState} {a : GroupState.Act} (h : ¬ saves g a) :
    g.act (.ok ()) a = g := by
  cases a with
  | add peer =>
    rw [saves, GroupState.addActivePeer] at h
    rw [GroupState.act, GroupState.addActivePeer]
    split at h
    · split at h
      · next hactive => simp only [if_pos hactive]
      · exact absurd rfl h
    · exact absurd rfl h
  | remove target =>
    rw [saves, GroupState.removePeer] at h
    rw [GroupState.act, GroupState.removePeer]
    split at h
    · rfl
    · split at h
      · next hself => simp only [if_pos hself]
      · exact absurd rfl h
  | merge incoming =>
    rw [saves] at h
    rw [GroupState.act]
    by_cases happ : incoming.any (GroupState.applies g.members)
    · obtain ⟨merge, hchanged, heq⟩ := GroupState.mergeMembers_of_applies happ (.ok ())
      rw [heq] at h
      exact absurd hchanged h
    · rw [GroupState.mergeMembers_of_not_applies happ]

theorem keyed_act {g : GroupState} (h : GroupState.Keyed g.members) (a : GroupState.Act) :
    GroupState.Keyed (g.act (.ok ()) a).members := by
  cases a with
  | add peer => exact LedgerSystem.keyed_addActivePeer h peer _
  | remove target => exact LedgerSystem.keyed_removePeer h target _
  | merge incoming =>
    rw [GroupState.act, GroupState.mergeMembers_snd]
    exact h.foldl_takeOver incoming

theorem localId_act (g : GroupState) (hg : GroupState.Keyed g.members) (a : GroupState.Act) :
    (g.act (.ok ()) a).localId = g.localId := by
  cases a with
  | add peer =>
    rcases GroupState.addActivePeer_cases hg peer (.ok ()) with heq | ⟨_, heq⟩ <;>
      rw [GroupState.act, heq]
  | remove target =>
    rcases GroupState.removePeer_cases g target (.ok ()) with heq | ⟨_, _, heq⟩ <;>
      rw [GroupState.act, heq]
  | merge incoming => rw [GroupState.act, GroupState.mergeMembers_snd]

theorem Persisted.act (hs : s.Persisted localId) {a : GroupState.Act}
    (hnext : s.next localId (.act a) = some s') : s'.Persisted localId := by
  obtain rfl := Option.some.inj hnext
  refine ⟨keyed_act hs.keyed a, (localId_act _ hs.keyed a).trans hs.localId_eq, ?_⟩
  by_cases hsaves : saves s.group a
  · exact if_pos hsaves
  · rw [act_of_not_saves hsaves]
    exact (if_neg hsaves).trans hs.file_eq

theorem Persisted.next (hs : s.Persisted localId) (hnext : s.next localId op = some s') :
    s'.Persisted localId := by
  cases op with
  | restart => exact (hs.restart hnext).1
  | act a => exact hs.act hnext

/-! ## Clocks go up -/

theorem ascends_next (hs : s.Persisted localId) (hroom : s.HasRoom localId op)
    (hnext : s.next localId op = some s') : Ascends s.group.members s'.group.members := by
  cases op with
  | restart => exact fun id e he ↦ ⟨e, (hs.restart hnext).2 id e he, UInt64.le_refl _⟩
  | act a =>
    obtain rfl := Option.some.inj hnext
    cases a with
    | add peer =>
      rw [GroupState.act, GroupState.addActivePeer]
      have hlt := fun (own : MemberEntry) (h : s.group.members[peer.toText]? = some own) ↦
        UInt64.le_of_lt (lt_nextLamport (hroom _ (List.mem_singleton_self _)) h)
      split
      · split
        · exact .refl _
        · exact .insert hlt
      · exact .insert hlt
    | remove target =>
      rw [HasRoom, ticks, GroupState.actTicks] at hroom
      rw [GroupState.act, GroupState.removePeer]
      split
      · exact .refl _
      · next e he =>
        rw [he] at hroom
        dsimp only at hroom
        split
        · exact .refl _
        · next hself =>
          rw [if_neg hself] at hroom
          exact .insert fun own hown ↦
            UInt64.le_of_lt (lt_nextLamport (hroom _ (List.mem_singleton_self _)) hown)
    | merge incoming =>
      rw [GroupState.act, GroupState.mergeMembers_snd]
      exact ascends_foldl_takeOver incoming _

/-! ## A removed member stays removed -/

theorem RemovedSince.insert (h : RemovedSince m lamport members) {k : Str} {e : MemberEntry}
    (hk : k = m → e.status = .removed ∧ lamport ≤ e.lamport) :
    RemovedSince m lamport (members.insert k e) := by
  obtain ⟨own, hown, hremoved, hle⟩ := h
  by_cases heq : k = m
  · exact ⟨e, by rw [OrdMap.getElem?_insert_eq, if_pos heq], hk heq⟩
  · exact ⟨own, by rw [OrdMap.getElem?_insert_eq, if_neg heq, hown], hremoved, hle⟩

/-- Entries that are not newer than the removal do not undo it. -/
theorem RemovedSince.foldl_takeOver {incoming : List MemberEntry}
    (hin : ∀ e ∈ incoming, e.id = m → ¬ lamport < e.lamport)
    (h : RemovedSince m lamport members) :
    RemovedSince m lamport (incoming.foldl GroupState.takeOver members) := by
  induction incoming generalizing members with
  | nil => exact h
  | cons e incoming ih =>
    rw [List.forall_mem_cons] at hin
    refine ih hin.2 ?_
    rw [GroupState.takeOver]
    split
    · next happ =>
      refine h.insert fun hid ↦ absurd ?_ (hin.1 hid)
      obtain ⟨own, hown, -, hle⟩ := h
      have hall := (Bool.and_eq_true_iff.mp happ).2
      rw [hid, hown] at hall
      exact UInt64.lt_of_le_of_lt hle (of_decide_eq_true hall)
    · exact h

theorem RemovedSince.next (hs : s.Persisted localId) (hroom : s.HasRoom localId op)
    (hbrings : ¬ Brings m lamport op) (h : RemovedSince m lamport s.group.members)
    (hnext : s.next localId op = some s') : RemovedSince m lamport s'.group.members := by
  cases op with
  | restart =>
    obtain ⟨e, he, hremoved⟩ := h
    exact ⟨e, (hs.restart hnext).2 m e he, hremoved⟩
  | act a =>
    obtain rfl := Option.some.inj hnext
    cases a with
    | add peer =>
      rcases GroupState.addActivePeer_cases hs.keyed peer (.ok ()) with heq | ⟨lamport', heq⟩ <;>
        rw [GroupState.act, heq]
      · exact h
      · exact h.insert fun heq ↦ absurd heq hbrings
    | remove target =>
      rw [HasRoom, ticks, GroupState.actTicks] at hroom
      rw [GroupState.act, GroupState.removePeer]
      split
      · exact h
      · next e he =>
        rw [he] at hroom
        dsimp only at hroom
        split
        · exact h
        · next hself =>
          rw [if_neg hself] at hroom
          refine h.insert fun _ ↦ ⟨rfl, ?_⟩
          obtain ⟨own, hown, -, hle⟩ := h
          exact UInt64.le_of_lt (UInt64.lt_of_le_of_lt hle
            (lt_nextLamport (hroom _ (List.mem_singleton_self _)) hown))
    | merge incoming =>
      rw [GroupState.act, GroupState.mergeMembers_snd]
      exact h.foldl_takeOver fun e he hid hlt ↦ hbrings ⟨e, he, hid, hlt⟩

/-! ## Runs -/

/-- Several operations in a row, none of which overflows the clock. -/
def runs (localId : NodeId) (s : LedgerOnDisk) (ops : List LedgerOp) : Option LedgerOnDisk :=
  Machine.runs (next localId) (HasRoom localId) s ops

/-- A run is a step and a run. -/
theorem of_runs_cons (h : s.runs localId (op :: ops) = some s') :
    ∃ s₁, s.HasRoom localId op ∧ s.next localId op = some s₁ ∧ s₁.runs localId ops = some s' := by
  rw [runs, Machine.runs, List.foldlM_cons] at h
  obtain ⟨s₁, hs₁, hrest⟩ := Option.bind_eq_some_iff.mp h
  split at hs₁
  · next hroom => exact ⟨s₁, hroom, hs₁, hrest⟩
  · cases hs₁

theorem persisted_runs (hs : s.Persisted localId) (h : s.runs localId ops = some s') :
    s'.Persisted localId ∧ Ascends s.group.members s'.group.members := by
  induction ops generalizing s with
  | nil => exact Option.some.inj h ▸ ⟨hs, .refl _⟩
  | cons op ops ih =>
    obtain ⟨s₁, hroom, hnext, hrest⟩ := of_runs_cons h
    obtain ⟨hs', hascends⟩ := ih (hs.next hnext) hrest
    exact ⟨hs', (ascends_next hs hroom hnext).trans hascends⟩

theorem removedSince_runs (hs : s.Persisted localId)
    (hbrings : ∀ op ∈ ops, ¬ Brings m lamport op) (hm : RemovedSince m lamport s.group.members)
    (h : s.runs localId ops = some s') : RemovedSince m lamport s'.group.members := by
  induction ops generalizing s with
  | nil => exact Option.some.inj h ▸ hm
  | cons op ops ih =>
    obtain ⟨s₁, hroom, hnext, hrest⟩ := of_runs_cons h
    rw [List.forall_mem_cons] at hbrings
    exact ih (hs.next hnext) hbrings.2 (hm.next hs hroom hbrings.1 hnext) hrest

/-- After a member has been removed clocks only go up, and it is active again only if it
has been added here or an entry with a later clock has been merged for it. -/
theorem removal_sticks (hs : s.Persisted localId)
    (hm : s.group.members[m]? = some ⟨m, .removed, lamport⟩)
    (hrun : s.runs localId ops = some s') (hrun' : s'.runs localId ops' = some s'') :
    Ascends s'.group.members s''.group.members ∧
      ∀ e : MemberEntry, s'.group.members[m]? = some e → e.status = .active →
        ∃ op ∈ ops, Brings m lamport op := by
  refine ⟨(persisted_runs (persisted_runs hs hrun).1 hrun').2, fun e he hactive ↦ ?_⟩
  by_contra hbrings
  have hbrings : ∀ op ∈ ops, ¬ Brings m lamport op := fun op hop hb ↦ hbrings ⟨op, hop, hb⟩
  obtain ⟨e', he', hremoved, -⟩ :=
    removedSince_runs hs hbrings ⟨_, hm, rfl, UInt64.le_refl _⟩ hrun
  rw [he] at he'
  obtain rfl := Option.some.inj he'
  rw [hactive] at hremoved
  cases hremoved

/-- A ledger that has been loaded is as saved. -/
theorem persisted_loadOrInit {file : PeersFile} {g : GroupState}
    (h : GroupState.loadOrInit localId file (.ok ()) = .ok g) :
    Persisted localId ⟨g, savePeersFile g.members⟩ :=
  ⟨(LedgerSystem.keyed_loadOrInit h).1, (LedgerSystem.keyed_loadOrInit h).2, rfl⟩

/-- The ledger of the node 1, which has removed the node 2. -/
def oneRemovedEntries : List MemberEntry :=
  [⟨LedgerSystem.exampleText 1, .active, 1⟩, ⟨LedgerSystem.exampleText 2, .removed, 3⟩]

def oneRemoved : GroupState :=
  ⟨LedgerSystem.exampleText 1, ExtTreeMap.ofList (oneRemovedEntries.map fun e ↦ (e.id, e))⟩

theorem persisted_oneRemoved :
    Persisted (GroupState.exampleId 1) ⟨oneRemoved, savePeersFile oneRemoved.members⟩ := by
  refine @persisted_loadOrInit _ (.loaded oneRemovedEntries) _ ?_
  rw [GroupState.loadOrInit]
  dsimp only
  rw [if_pos (by decide +kernel)]
  rfl

/-- The process restarts, the node 3 joins, and a peer sends an entry from before the
removal, twice. -/
def staleMerge : List LedgerOp :=
  [.restart, .act (.add (GroupState.exampleId 3)),
    .act (.merge (List.replicate 2 ⟨LedgerSystem.exampleText 2, .active, 2⟩))]

theorem removal_sticks_after_staleMerge : ∃ s s' : LedgerOnDisk,
    Ascends s.group.members s'.group.members ∧
      ∀ e : MemberEntry, s.group.members[LedgerSystem.exampleText 2]? = some e →
        e.status = .active → ∃ op ∈ staleMerge, Brings (LedgerSystem.exampleText 2) 3 op := by
  obtain ⟨s, hs⟩ : ∃ s, runs (GroupState.exampleId 1)
      ⟨oneRemoved, savePeersFile oneRemoved.members⟩ staleMerge = some s :=
    Option.isSome_iff_exists.mp (by decide +kernel)
  obtain ⟨s', hs'⟩ : ∃ s', s.runs (GroupState.exampleId 1) [] = some s' := ⟨s, rfl⟩
  exact ⟨s, s', removal_sticks persisted_oneRemoved (by decide +kernel) hs hs'⟩

end LedgerOnDisk

end Lilsync
