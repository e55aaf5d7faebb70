import Lilsync.Group.Views

/-!
# Removing a peer from the command line

`remove_peer_cmd` edits `peers.json` while a daemon may be running, and asks for
a restart.  The daemon has a ledger of its own in memory and overwrites the file
with it at every change, so the removal lasts until the restart only if the
daemon saves nothing in which the peer is not removed (`removalKept_of_savesRemoval`).
-/

namespace Lilsync

open Std (ExtTreeMap)
open Lilsync.Lib

/-- `save_peers_file`: what it leaves at the path. -/
def savePeersFile (members : Members) : PeersFile :=
  .loaded ((OrdMap.values members).insertionSort fun e e' ↦ e.id ≤ e'.id)

/-- Where `remove_peer_cmd` stands. -/
inductive RemovePc where
  | loading
  | savingLoaded (group : GroupState)
  | savingRemoved (group : GroupState) (id : Str)
  | printed (id : Str)
  | failed

/-- The target that has been reported as removed. -/
def RemovePc.removed : RemovePc → Option Str
  | printed id => some id
  | _ => none

/-- The file, the ledger of the daemon, and the command. -/
structure LedgerSystem where
  file : PeersFile
  daemon : GroupState
  command : RemovePc

/-- A step of the command, or an operation of the daemon, with the outcome of its save. -/
inductive LedgerAct where
  | command (saved : IoResult Unit)
  | addActivePeer (peer : NodeId) (saved : IoResult Unit)
  | mergeMembers (incoming : List MemberEntry) (saved : IoResult Unit)

namespace LedgerSystem

/-- The next step of `remove_peer_cmd`: it loads the file, saves it, removes the peer
and saves the file again. -/
def runCommand (localId : NodeId) (target : Str) (s : LedgerSystem) (saved : IoResult Unit) :
    Option LedgerSystem :=
  match s.command with
  | .loading =>
    match GroupState.loadOrInit localId s.file (.ok ()) with
    | .error _ => some { s with command := .failed }
    | .ok group => some { s with command := .savingLoaded group }
  | .savingLoaded group =>
    match saved with
    | .error _ => some { s with command := .failed }
    | .ok () =>
      match group.removePeer target (.ok ()) with
      | (.ok (some id), removed) =>
        some { s with file := savePeersFile group.members, command := .savingRemoved removed id }
      | _ => some { s with file := savePeersFile group.members, command := .failed }
  | .savingRemoved group id =>
    match saved with
    | .error _ => some { s with command := .failed }
    | .ok () => some { s with file := savePeersFile group.members, command := .printed id }
  | .printed _ | .failed => none

/-- The daemon has a new ledger, and has saved it if it says so. -/
def setDaemon (s : LedgerSystem) (saves : Bool) (daemon : GroupState) : LedgerSystem :=
  { s with daemon, file := if saves then savePeersFile daemon.members else s.file }

def next (localId : NodeId) (target : Str) (s : LedgerSystem) : LedgerAct → Option LedgerSystem
  | .command saved => s.runCommand localId target saved
  | .addActivePeer peer saved =>
    let added := s.daemon.addActivePeer peer saved
    some (s.setDaemon (added.1.toOption == some true) added.2)
  | .mergeMembers incoming saved =>
    let merged := s.daemon.mergeMembers incoming saved
    some (s.setDaemon (merged.1.toOption.any MemberMerge.changed) merged.2)

/-- The member is removed. -/
def Removed (members : Members) (id : Str) : Prop :=
  ∃ e : MemberEntry, members[id]? = some e ∧ e.status = .removed

/-- A daemon that is restarted after the command has reported the removal starts with
the target removed. -/
def RemovalKept (localId : NodeId) (s : LedgerSystem) : Prop :=
  ∀ id ∈ s.command.removed, ∀ saved g,
    GroupState.loadOrInit localId s.file saved = .ok g → Removed g.members id

/-! ## The last word on a member -/

/-- What a ledger and the entries it merges say about a member. -/
def said (members : Members) (incoming : List MemberEntry) (id : Str) : List MemberEntry :=
  members[id]?.toList ++ incoming.filter fun e ↦ e.id = id ∧ (NodeId.fromText id).isSome

/-- The newest entry for a member removes it. -/
def RemovedLast (members : Members) (incoming : List MemberEntry) (id : Str) : Prop :=
  ∃ r ∈ said members incoming id, r.status = .removed ∧
    ∀ e ∈ said members incoming id, e.status = .active → e.lamport < r.lamport

instance (members : Members) (incoming : List MemberEntry) (id : Str) :
    Decidable (RemovedLast members incoming id) :=
  inferInstanceAs (Decidable (∃ r ∈ said members incoming id, r.status = .removed ∧
    ∀ e ∈ said members incoming id, e.status = .active → e.lamport < r.lamport))

theorem RemovedLast.removed {members : Members} {id : Str} (h : RemovedLast members [] id) :
    Removed members id := by
  obtain ⟨r, hr, hremoved, -⟩ := h
  rw [said, List.filter_nil, List.append_nil, Option.mem_toList] at hr
  exact ⟨r, hr, hremoved⟩

theorem getElem?_takeOver_of_ne {members : Members} {e : MemberEntry} {id : Str} (h : e.id ≠ id) :
    (GroupState.takeOver members e)[id]? = members[id]? := by
  rw [GroupState.takeOver]
  split
  · rw [OrdMap.getElem?_insert_eq, if_neg h]
  · rfl

/-- What is said of a member is said of it after an entry has been merged, but for the
older one of that entry and the ledger's own. -/
theorem RemovedLast.takeOver {members : Members} {e : MemberEntry} {incoming : List MemberEntry}
    {id : Str} (h : RemovedLast members (e :: incoming) id) :
    RemovedLast (GroupState.takeOver members e) incoming id := by
  obtain ⟨r, hr, hremoved, hlast⟩ := h
  by_cases hid : e.id = id ∧ (NodeId.fromText id).isSome
  · obtain ⟨rfl, hparse⟩ := hid
    rw [said, List.filter_cons_of_pos (by simp [hparse])] at hr hlast
    by_cases happ : GroupState.applies members e
    · have hsaid : said (GroupState.takeOver members e) incoming e.id =
          e :: incoming.filter fun e' ↦ e'.id = e.id ∧ (NodeId.fromText e.id).isSome := by
        rw [said, GroupState.takeOver, if_pos happ, OrdMap.getElem?_insert_eq, if_pos rfl]
        rfl
      rcases List.mem_append.mp hr with hown | hin
      · rw [Option.mem_toList] at hown
        have hlt : r.lamport < e.lamport := by
          have hall := (Bool.and_eq_true_iff.mp happ).2
          rw [Option.mem_def.mp hown] at hall
          exact of_decide_eq_true hall
        refine ⟨e, hsaid ▸ List.mem_cons_self, ?_, fun x hx hactive ↦ ?_⟩
        · cases he : e.status with
          | removed => rfl
          | active =>
            exact absurd (hlast e (List.mem_append_right _ List.mem_cons_self) he) (UInt64.lt_asymm hlt)
        · exact UInt64.lt_trans (hlast x (List.mem_append_right _ (hsaid ▸ hx)) hactive) hlt
      · exact ⟨r, hsaid ▸ hin, hremoved, fun x hx ↦
          hlast x (List.mem_append_right _ (hsaid ▸ hx))⟩
    · obtain ⟨own, hown, hle⟩ : ∃ own, members[e.id]? = some own ∧ e.lamport ≤ own.lamport := by
        rw [GroupState.applies, hparse, Bool.true_and, Bool.not_eq_true, Option.all_eq_false] at happ
        obtain ⟨own, hown, hge⟩ := happ
        exact ⟨own, hown, UInt64.not_lt.mp (of_decide_eq_false hge)⟩
      have hsaid : said (GroupState.takeOver members e) incoming e.id =
          own :: incoming.filter fun e' ↦ e'.id = e.id ∧ (NodeId.fromText e.id).isSome := by
        rw [said, GroupState.takeOver, if_neg happ, hown]
        rfl
      rw [hown] at hr hlast
      have hsub : ∀ x ∈ said (GroupState.takeOver members e) incoming e.id,
          x ∈ (some own).toList ++ e :: incoming.filter fun e' ↦
            e'.id = e.id ∧ (NodeId.fromText e.id).isSome := by
        intro x hx
        rw [hsaid] at hx
        rcases List.mem_cons.mp hx with rfl | hx
        · exact List.mem_cons_self
        · exact List.mem_cons_of_mem _ (List.mem_cons_of_mem _ hx)
      rcases List.mem_cons.mp hr with rfl | hr
      · exact ⟨r, hsaid ▸ List.mem_cons_self, hremoved, fun x hx ↦ hlast x (hsub x hx)⟩
      · rcases List.mem_cons.mp hr with rfl | hr
        · refine ⟨own, hsaid ▸ List.mem_cons_self, ?_, fun x hx hactive ↦
            UInt64.lt_of_lt_of_le (hlast x (hsub x hx) hactive) hle⟩
          cases ho : own.status with
          | removed => rfl
          | active => exact absurd (hlast own List.mem_cons_self ho) (UInt64.not_lt.mpr hle)
        · exact ⟨r, hsaid ▸ List.mem_cons_of_mem _ hr, hremoved, fun x hx ↦ hlast x (hsub x hx)⟩
  · have hsaid : said (GroupState.takeOver members e) incoming id =
        said members (e :: incoming) id := by
      rw [said, said, List.filter_cons_of_neg (by simpa using hid)]
      congr 2
      by_cases heq : e.id = id
      · rw [GroupState.takeOver, if_neg]
        rw [GroupState.applies, heq]
        simp [not_and.mp hid heq]
      · exact getElem?_takeOver_of_ne heq
    exact ⟨r, hsaid ▸ hr, hremoved, hsaid ▸ hlast⟩

theorem RemovedLast.removed_foldl {members : Members} {incoming : List MemberEntry} {id : Str}
    (h : RemovedLast members incoming id) :
    Removed (incoming.foldl GroupState.takeOver members) id := by
  induction incoming generalizing members with
  | nil => exact h.removed
  | cons e incoming ih => exact ih h.takeOver

/-! ## What is saved is loaded -/

theorem functional_savePeersFile (members : Members) (h : GroupState.Keyed members) :
    OrdMap.Functional (((OrdMap.values members).insertionSort fun e e' ↦ e.id ≤ e'.id).map
      fun e ↦ (e.id, e)) := by
  intro k e e' he he'
  obtain ⟨e₀, hmem, heq⟩ := List.mem_map.mp he
  obtain ⟨e₀', hmem', heq'⟩ := List.mem_map.mp he'
  obtain ⟨rfl, rfl⟩ := Prod.mk.inj heq
  obtain ⟨hid, rfl⟩ := Prod.mk.inj heq'
  obtain ⟨j, hj⟩ := OrdMap.mem_values_iff.mp ((List.mem_insertionSort _).mp hmem)
  obtain ⟨j', hj'⟩ := OrdMap.mem_values_iff.mp ((List.mem_insertionSort _).mp hmem')
  obtain rfl := h j _ hj
  obtain rfl := h j' _ hj'
  rw [hid, hj] at hj'
  exact Option.some.inj hj'

/-- The map built from a saved file is the ledger that was saved. -/
theorem getElem?_ofList_savePeersFile {members : Members} (h : GroupState.Keyed members) (id : Str) :
    (ExtTreeMap.ofList ((savePeersFile members).entries.map fun e ↦ (e.id, e)) : Members)[id]? =
      members[id]? := by
  refine Option.ext fun e ↦ ?_
  rw [savePeersFile, PeersFile.entries,
    OrdMap.getElem?_ofList_iff (functional_savePeersFile members h)]
  simp only [List.mem_map, List.mem_insertionSort, OrdMap.mem_values_iff, Prod.mk.injEq]
  constructor
  · rintro ⟨e', ⟨k, hk⟩, rfl, rfl⟩
    rwa [h k _ hk]
  · intro he
    exact ⟨e, ⟨id, he⟩, h id _ he, rfl⟩

/-- A ledger is loaded as it has been saved, but for the local node. -/
theorem getElem?_loadOrInit_savePeersFile {localId : NodeId} {members : Members}
    {saved : IoResult Unit} {g : GroupState} (h : GroupState.Keyed members)
    (hload : GroupState.loadOrInit localId (savePeersFile members) saved = .ok g) {id : Str}
    (hid : id ≠ localId.toText) : g.members[id]? = members[id]? := by
  rw [← getElem?_ofList_savePeersFile h, savePeersFile, PeersFile.entries]
  rw [savePeersFile, GroupState.loadOrInit] at hload
  cases saved with
  | error err => cases hload
  | ok =>
    obtain rfl := Except.ok.inj hload
    dsimp only
    split
    · rfl
    · rw [OrdMap.getElem?_insert_eq, if_neg hid.symm]

theorem keyed_ofList (l : List MemberEntry) :
    GroupState.Keyed (ExtTreeMap.ofList (l.map fun e ↦ (e.id, e))) := by
  intro k e he
  obtain ⟨e', -, heq⟩ := List.mem_map.mp (OrdMap.mem_of_getElem?_ofList he)
  obtain ⟨rfl, rfl⟩ := Prod.mk.inj heq
  rfl

theorem keyed_loadOrInit {localId : NodeId} {file : PeersFile} {saved : IoResult Unit}
    {g : GroupState} (h : GroupState.loadOrInit localId file saved = .ok g) :
    GroupState.Keyed g.members ∧ g.localId = localId.toText := by
  have hstart : ∀ members, GroupState.Keyed members → ∀ g,
      saved.map (fun _ ↦ GroupState.mk localId.toText
        (if localId.toText ∈ members then members else members.insert localId.toText
          ⟨localId.toText, .active, nextLamport members⟩)) = .ok g →
      GroupState.Keyed g.members ∧ g.localId = localId.toText := by
    intro members hm g hg
    cases saved with
    | error err => cases hg
    | ok _ =>
      obtain rfl := Except.ok.inj hg
      dsimp only
      split
      · exact ⟨hm, rfl⟩
      · exact ⟨hm.insert ⟨localId.toText, .active, _⟩, rfl⟩
  cases file with
  | missing => exact hstart ∅ GroupState.keyed_empty g h
  | unreadable err => cases h
  | invalid => cases h
  | loaded members => exact hstart _ (keyed_ofList members) g h

/-- A peer that is reported as removed is removed, and is not the local node. -/
theorem removed_removePeer {g g' : GroupState} {target id : Str} {saved : IoResult Unit}
    (h : g.removePeer target saved = (.ok (some id), g')) :
    id ≠ g.localId ∧ Removed g'.members id ∧ g'.localId = g.localId := by
  rw [GroupState.removePeer] at h
  split at h
  · cases h
  · next e he =>
    split at h
    · cases h
    · next hne =>
      cases saved with
      | error err => cases h
      | ok _ =>
        obtain ⟨hres, rfl⟩ := Prod.mk.inj h
        obtain rfl := Option.some.inj (Except.ok.inj hres)
        refine ⟨hne, ⟨{ e with status := .removed, lamport := nextLamport g.members }, ?_, rfl⟩, rfl⟩
        rw [OrdMap.getElem?_insert_eq, if_pos rfl]

theorem keyed_removePeer {g : GroupState} (h : GroupState.Keyed g.members) (target : Str)
    (saved : IoResult Unit) : GroupState.Keyed (g.removePeer target saved).2.members := by
  rcases GroupState.removePeer_cases g target saved with heq | ⟨id, lamport, heq⟩ <;> rw [heq]
  · exact h
  · exact h.insert ⟨id, .removed, lamport⟩

theorem keyed_addActivePeer {g : GroupState} (h : GroupState.Keyed g.members) (peer : NodeId)
    (saved : IoResult Unit) : GroupState.Keyed (g.addActivePeer peer saved).2.members := by
  rcases GroupState.addActivePeer_cases h peer saved with heq | ⟨lamport, heq⟩ <;> rw [heq]
  · exact h
  · exact h.insert ⟨peer.toText, .active, lamport⟩

/-! ## The invariant -/

section Invariant

variable {localId : NodeId} {target : Str} {s s' : LedgerSystem}

/-- A ledger in memory is keyed; once the removal has been reported, the file has it. -/
structure Sound (localId : NodeId) (s : LedgerSystem) : Prop where
  daemon : GroupState.Keyed s.daemon.members
  loaded : ∀ g, s.command = .savingLoaded g → GroupState.Keyed g.members ∧
    g.localId = localId.toText
  removed : ∀ g id, s.command = .savingRemoved g id → GroupState.Keyed g.members ∧
    Removed g.members id ∧ id ≠ localId.toText
  saved : ∀ id ∈ s.command.removed, id ≠ localId.toText ∧ ∃ members, GroupState.Keyed members ∧
    Removed members id ∧ s.file = savePeersFile members

theorem Sound.removalKept (h : Sound localId s) : RemovalKept localId s := by
  intro id hid saved g hload
  obtain ⟨hne, members, hkeyed, ⟨e, he, hremoved⟩, hfile⟩ := h.saved id hid
  refine ⟨e, ?_, hremoved⟩
  rw [hfile] at hload
  rw [getElem?_loadOrInit_savePeersFile hkeyed hload hne, he]

/-- The command keeps the invariant, whatever the daemon has done in between. -/
theorem Sound.runCommand (h : Sound localId s) {saved : IoResult Unit}
    (hrun : s.runCommand localId target saved = some s') : Sound localId s' := by
  have hquiet (file : PeersFile) (command : RemovePc) (hc : command.removed = none)
      (hl : ∀ g, command = .savingLoaded g → GroupState.Keyed g.members ∧
        g.localId = localId.toText)
      (hr : ∀ g id, command = .savingRemoved g id → GroupState.Keyed g.members ∧
        Removed g.members id ∧ id ≠ localId.toText) :
      Sound localId { s with file, command } :=
    ⟨h.daemon, hl, hr, fun id hid ↦ by rw [hc] at hid; cases hid⟩
  rw [LedgerSystem.runCommand] at hrun
  cases hpc : s.command with rw [hpc] at hrun
  | loading =>
    dsimp only at hrun
    split at hrun <;> obtain rfl := Option.some.inj hrun
    · exact hquiet _ _ rfl (by simp) (by simp)
    · next g hload =>
      refine hquiet _ _ rfl (fun g' hg' ↦ ?_) (by simp)
      cases hg'
      exact keyed_loadOrInit hload
  | savingLoaded g =>
    obtain ⟨hkeyed, hlocal⟩ := h.loaded g hpc
    dsimp only at hrun
    split at hrun
    · obtain rfl := Option.some.inj hrun
      exact hquiet _ _ rfl (by simp) (by simp)
    · split at hrun <;> obtain rfl := Option.some.inj hrun
      · next id g' hremove =>
        refine hquiet _ _ rfl (by simp) fun g'' id' hg ↦ ?_
        cases hg
        obtain ⟨hne, hremoved, -⟩ := removed_removePeer hremove
        refine ⟨?_, hremoved, hlocal ▸ hne⟩
        have := keyed_removePeer hkeyed target (.ok ())
        rwa [hremove] at this
      · exact hquiet _ _ rfl (by simp) (by simp)
  | savingRemoved g id =>
    obtain ⟨hkeyed, hremoved, hne⟩ := h.removed g id hpc
    dsimp only at hrun
    split at hrun <;> obtain rfl := Option.some.inj hrun
    · exact hquiet _ _ rfl (by simp) (by simp)
    · refine ⟨h.daemon, by simp, by simp, fun id' hid' ↦ ?_⟩
      obtain rfl := Option.some.inj hid'
      exact ⟨hne, g.members, hkeyed, hremoved, rfl⟩
  | printed id => cases hrun
  | failed => cases hrun

/-- The daemon keeps the invariant as long as what it saves after the removal has been
reported has the removal. -/
theorem Sound.setDaemon (h : Sound localId s) {saves : Bool} {daemon : GroupState}
    (hkeyed : GroupState.Keyed daemon.members)
    (hsaves : saves → ∀ id ∈ s.command.removed, Removed daemon.members id) :
    Sound localId (s.setDaemon saves daemon) := by
  refine ⟨hkeyed, h.loaded, h.removed, fun id hid ↦ ?_⟩
  obtain ⟨hne, members, hm, hremoved, hfile⟩ := h.saved id hid
  refine ⟨hne, ?_⟩
  rw [LedgerSystem.setDaemon]
  cases saves with
  | false => exact ⟨members, hm, hremoved, hfile⟩
  | true => exact ⟨daemon.members, hkeyed, hsaves rfl id hid, rfl⟩

/-- Once the removal has been reported, the daemon saves only ledgers that have it:
whatever makes it save, the newest word on the target is the removal. -/
def SavesRemoval (s : LedgerSystem) : LedgerAct → Prop
  | .command _ => True
  | .addActivePeer peer saved => saved.isOk → ¬ s.daemon.isActiveMember peer →
      ∀ id ∈ s.command.removed, peer.toText ≠ id ∧ RemovedLast s.daemon.members [] id
  | .mergeMembers incoming saved => saved.isOk →
      incoming.any (GroupState.applies s.daemon.members) →
      ∀ id ∈ s.command.removed, RemovedLast s.daemon.members incoming id

instance (s : LedgerSystem) (act : LedgerAct) : Decidable (SavesRemoval s act) :=
  match act with
  | .command _ => isTrue trivial
  | .addActivePeer peer saved => inferInstanceAs (Decidable (saved.isOk →
      ¬ s.daemon.isActiveMember peer → ∀ id ∈ s.command.removed,
        peer.toText ≠ id ∧ RemovedLast s.daemon.members [] id))
  | .mergeMembers incoming saved => inferInstanceAs (Decidable (saved.isOk →
      incoming.any (GroupState.applies s.daemon.members) →
      ∀ id ∈ s.command.removed, RemovedLast s.daemon.members incoming id))

/-- A peer is added, and the ledger saved, if the peer is not active. -/
theorem saves_of_addActivePeer {g : GroupState} {peer : NodeId} {saved : IoResult Unit}
    (h : (g.addActivePeer peer saved).1.toOption = some true) :
    saved.isOk ∧ ¬ g.isActiveMember peer ∧ ∃ lamport, (g.addActivePeer peer saved).2.members =
      g.members.insert peer.toText { (g.members[peer.toText]?.getD
        ⟨peer.toText, .active, lamport⟩) with status := .active, lamport } := by
  rw [GroupState.addActivePeer] at h ⊢
  rw [GroupState.isActiveMember]
  cases he : g.members[peer.toText]? with rw [he] at h
  | none =>
    cases saved with
    | error err => cases h
    | ok _ => exact ⟨rfl, by simp, nextLamport g.members, rfl⟩
  | some e =>
    dsimp only at h ⊢
    split at h
    · cases h
    · next hactive =>
      rw [if_neg hactive]
      cases saved with
      | error err => cases h
      | ok _ => exact ⟨rfl, by simpa using hactive, nextLamport g.members, rfl⟩

/-- Entries are merged, and the ledger saved, if the ledger takes one of them over. -/
theorem saves_of_mergeMembers {g : GroupState} {incoming : List MemberEntry}
    {saved : IoResult Unit}
    (h : (g.mergeMembers incoming saved).1.toOption.any MemberMerge.changed) :
    saved.isOk ∧ incoming.any (GroupState.applies g.members) := by
  by_cases happ : incoming.any (GroupState.applies g.members)
  · obtain ⟨merge, -, heq⟩ := GroupState.mergeMembers_of_applies happ saved
    rw [heq] at h
    cases saved with
    | error err => cases h
    | ok _ => exact ⟨rfl, happ⟩
  · rw [GroupState.mergeMembers_of_not_applies happ] at h
    cases h

theorem Sound.next (h : Sound localId s) {act : LedgerAct} (hsaves : SavesRemoval s act)
    (hnext : s.next localId target act = some s') : Sound localId s' := by
  cases act with
  | command saved => exact h.runCommand hnext
  | addActivePeer peer saved =>
    obtain rfl := Option.some.inj hnext
    refine h.setDaemon (keyed_addActivePeer h.daemon peer saved) fun hchanged id hid ↦ ?_
    obtain ⟨hok, hactive, lamport, hmembers⟩ := saves_of_addActivePeer (by simpa using hchanged)
    obtain ⟨hne, hlast⟩ := hsaves hok hactive id hid
    obtain ⟨e, he, hremoved⟩ := hlast.removed
    refine ⟨e, ?_, hremoved⟩
    rw [hmembers, OrdMap.getElem?_insert_eq, if_neg hne, he]
  | mergeMembers incoming saved =>
    obtain rfl := Option.some.inj hnext
    have hsnd := GroupState.mergeMembers_snd s.daemon incoming saved
    refine h.setDaemon ?_ fun hchanged id hid ↦ ?_ <;> rw [hsnd]
    · exact h.daemon.foldl_takeOver incoming
    · obtain ⟨hok, happ⟩ := saves_of_mergeMembers hchanged
      exact (hsaves hok happ id hid).removed_foldl

/-- A daemon that has just started, and a command that has not. -/
def Started (localId : NodeId) (s : LedgerSystem) : Prop :=
  s.command = .loading ∧ s.file = savePeersFile s.daemon.members ∧
    ∃ file, GroupState.loadOrInit localId file (.ok ()) = .ok s.daemon

/-- The machine of a daemon and of the command that removes the target, held to what
`P` allows. -/
def machine (localId : NodeId) (target : Str) (P : LedgerSystem → LedgerAct → Prop) :
    Machine LedgerSystem :=
  .ofActions (Started localId) (next localId target) P

/-- The removal lasts until the restart, as long as the daemon saves only ledgers that
have it. -/
theorem removalKept_of_savesRemoval (h : (machine localId target SavesRemoval).Reachable s) :
    RemovalKept localId s := by
  refine (h.invariant (I := Sound localId) ?_ ?_).removalKept
  · rintro s ⟨hcommand, -, file, hload⟩
    refine ⟨(keyed_loadOrInit hload).1, ?_, ?_, ?_⟩ <;> rw [hcommand] <;> simp [RemovePc.removed]
  · rintro s s' - hs ⟨act, hsaves, hnext⟩
    exact hs.next hsaves hnext

end Invariant

/-! ## A removal that is lost -/

/-- Nothing that the daemon learns makes the target active again. -/
def NeverReactivates (target : Str) (s : LedgerSystem) : LedgerAct → Prop
  | .command _ => True
  | .addActivePeer peer _ => peer.toText ≠ target
  | .mergeMembers incoming _ => ∀ e ∈ incoming, e.id = target → e.status = .active →
      s.daemon.members[target]?.any fun own ↦ e.lamport ≤ own.lamport

instance (target : Str) (s : LedgerSystem) (act : LedgerAct) :
    Decidable (NeverReactivates target s act) :=
  match act with
  | .command _ => isTrue trivial
  | .addActivePeer peer _ => inferInstanceAs (Decidable (peer.toText ≠ target))
  | .mergeMembers incoming _ => inferInstanceAs (Decidable (∀ e ∈ incoming, e.id = target →
      e.status = .active → s.daemon.members[target]?.any fun own ↦ e.lamport ≤ own.lamport))

/-- The text of a node id. -/
def exampleText (b : UInt8) : Str := (GroupState.exampleId b).toText

/-- The nodes 1 and 2, both active. -/
def twoEntries : List MemberEntry :=
  [⟨exampleText 1, .active, 1⟩, ⟨exampleText 2, .active, 1⟩]

/-- The daemon of the node 1 has started, and the command has not. -/
def twoStarted : LedgerSystem :=
  let members := ExtTreeMap.ofList (twoEntries.map fun e ↦ (e.id, e))
  ⟨savePeersFile members, ⟨exampleText 1, members⟩, .loading⟩

theorem started_twoStarted : Started (GroupState.exampleId 1) twoStarted := by
  refine ⟨rfl, rfl, .loaded twoEntries, ?_⟩
  rw [GroupState.loadOrInit]
  dsimp only
  rw [if_pos (by decide +kernel)]
  rfl

/-- The node 2 is removed. -/
def removal : List LedgerAct := List.replicate 3 (.command (.ok ()))

/-- The node 3 joins. -/
def joining : LedgerAct := .addActivePeer (GroupState.exampleId 3) (.ok ())

theorem removalKept_after_joining :
    ∃ s, Machine.runs (next (GroupState.exampleId 1) (exampleText 2)) SavesRemoval twoStarted
      (joining :: removal) = some s ∧ RemovalKept (GroupState.exampleId 1) s := by
  obtain ⟨s, hs⟩ : ∃ s, Machine.runs (next (GroupState.exampleId 1) (exampleText 2)) SavesRemoval
      twoStarted (joining :: removal) = some s := Option.isSome_iff_exists.mp (by decide +kernel)
  exact ⟨s, hs, removalKept_of_savesRemoval (Machine.reachable_runs (.init started_twoStarted) hs)⟩

/-- The counterexample: a node joins after the removal, and the daemon saves a ledger
that never had it. -/
theorem not_forall_removalKept :
    ¬ ∀ localId target s, (machine localId target (NeverReactivates target)).Reachable s →
      RemovalKept localId s := by
  intro h
  obtain ⟨s, hs, hlost⟩ := (Option.any_eq_true _ _).mp
    (show (Machine.runs (next (GroupState.exampleId 1) (exampleText 2))
      (NeverReactivates (exampleText 2)) twoStarted (removal ++ [joining])).any (fun s ↦
        s.command.removed == some (exampleText 2) &&
          (GroupState.loadOrInit (GroupState.exampleId 1) s.file (.ok ())).toOption.any fun g ↦
            g.members[exampleText 2]?.any fun e ↦ e.status == .active) by decide +kernel)
  simp only [Bool.and_eq_true, beq_iff_eq, Option.any_eq_true] at hlost
  obtain ⟨hremoved, g, hload, e, he, hactive⟩ := hlost
  obtain ⟨e', he', hstatus⟩ := h (GroupState.exampleId 1) (exampleText 2) s
    (Machine.reachable_runs (.init started_twoStarted) hs) (exampleText 2) hremoved (.ok ()) g
    (by cases hg : GroupState.loadOrInit (GroupState.exampleId 1) s.file (.ok ()) with
      | error err => rw [hg] at hload; cases hload
      | ok g' => rw [hg] at hload; rw [Option.some.inj hload])
  rw [he] at he'
  obtain rfl := Option.some.inj he'
  rw [hstatus] at hactive
  cases hactive

end LedgerSystem

end Lilsync
