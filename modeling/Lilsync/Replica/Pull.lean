import Lilsync.Replica.Bury
import Lilsync.Replica.Sound

/-!
# Two idle nodes converge

In a full pull a node visits the entries of its peer and accepts what is newer.
That is not a plain merge: a file or a tombstone that comes in buries what is live
below its path, under fresh tombstones that the peer has to pull in turn.  But no
live entry is ever made, and at each node a live entry is buried at most once, so
there comes a round that buries nothing.  That round is a merge, and it leaves
both nodes with the same index.
-/

namespace Lilsync

open Std (ExtTreeMap)
open Lilsync.Lib

namespace Replica

variable {r r' r'' : Replica} {st : Recorded} {remote : Entry} {k : Str}

/-! ## Pulling -/

/-- The entry is newer than what the index holds at its path. -/
def isNewer (r : Replica) (remote : Entry) : Bool :=
  r.entries[remote.path]?.all fun entry ↦ entry.version < remote.version

/-- What a visited entry does to the index, if entries are accepted this way. -/
def pullEntry (accepts : Replica → Entry → Bool) (r : Replica) (remote : Entry) : Replica :=
  if accepts r remote then (recordRemote r remote).1 else r

/-- What the visited entries do to the index. -/
def pull (accepts : Replica → Entry → Bool) (r : Replica) (visited : List Entry) : Replica :=
  visited.foldl (pullEntry accepts) r

/-- The two nodes after a number of rounds.  In each the first one pulls from the
second and then the second from the first; `visit` is the order of a pull. -/
def rounds (accepts : Replica → Entry → Bool) (visit : Nat → Index → List Entry) (A B : Replica) :
    Nat → Replica × Replica
  | 0 => (A, B)
  | n + 1 =>
    let (A, B) := rounds accepts visit A B n
    let A := pull accepts A (visit (2 * n) B.entries)
    (A, pull accepts B (visit (2 * n + 1) A.entries))

/-- Every entry is at its own path. -/
def AtOwnPaths (entries : Index) : Prop := ∀ (k : Str) (e : Entry), entries[k]? = some e → e.path = k

/-- A pull visits every entry of the index once. -/
def VisitsAll (visit : Nat → Index → List Entry) : Prop :=
  ∀ n entries, (visit n entries).Perm (OrdMap.values entries)

/-- A pull visits parents before their children. -/
def ParentsFirst (visit : Nat → Index → List Entry) : Prop :=
  ∀ n entries, AtOwnPaths entries →
    (visit n entries).Pairwise fun a b ↦ ¬ SlashPath.Below slash b.path a.path

/-! ## Two nodes -/

/-- Two idle nodes: of different origins, with equal watermarks that cover none of
their tombstones, and with clocks at or above their indexes and watermarks.  At a
path a version determines the entry. -/
structure Idle (A B : Replica) : Prop where
  origin_ne : A.origin ≠ B.origin
  gcWatermark_eq : A.gcWatermark = B.gcWatermark
  sound_left : A.Sound
  sound_right : B.Sound
  atOwnPaths_left : AtOwnPaths A.entries
  atOwnPaths_right : AtOwnPaths B.entries
  agree : ∀ (k : Str) (x y : Entry), A.entries[k]? = some x → B.entries[k]? = some y →
    x.version = y.version → x = y

/-- The clock has seen every version of the own origin that is in the index. -/
def HasSeen (r : Replica) (entries : Index) : Prop :=
  ∀ (k : Str) (e : Entry), entries[k]? = some e → e.version.origin = r.origin →
    e.version.lamport ≤ r.lamport

/-- Two nodes on the way.  No live entry comes up that is not listed. -/
structure Peers (live : Finset Entry) (A B : Replica) : Prop extends Idle A B where
  hasSeen_left : A.HasSeen B.entries
  hasSeen_right : B.HasSeen A.entries
  live_left : ∀ (k : Str) (e : Entry), A.entries[k]? = some e → e.kind ≠ .tombstone → e ∈ live
  live_right : ∀ (k : Str) (e : Entry), B.entries[k]? = some e → e.kind ≠ .tombstone → e ∈ live

variable {live : Finset Entry} {A B A' A'' : Replica}

theorem Peers.symm (h : Peers live A B) : Peers live B A where
  origin_ne := h.origin_ne.symm
  gcWatermark_eq := h.gcWatermark_eq.symm
  sound_left := h.sound_right
  sound_right := h.sound_left
  atOwnPaths_left := h.atOwnPaths_right
  atOwnPaths_right := h.atOwnPaths_left
  agree k x y hx hy hv := (h.agree k y x hy hx hv.symm).symm
  hasSeen_left := h.hasSeen_right
  hasSeen_right := h.hasSeen_left
  live_left := h.live_right
  live_right := h.live_left

/-! ## Progress -/

/-- No path is forgotten, and no version goes back. -/
def Grows (r r' : Replica) : Prop :=
  ∀ (k : Str) (x : Entry), r.entries[k]? = some x →
    ∃ y, r'.entries[k]? = some y ∧ x.version ≤ y.version

theorem Grows.refl (r : Replica) : Grows r r := fun _ x hx ↦ ⟨x, hx, le_rfl⟩

theorem Grows.trans (h : Grows r r') (h' : Grows r' r'') : Grows r r'' := by
  intro k x hx
  obtain ⟨y, hy, hxy⟩ := h k x hx
  obtain ⟨z, hz, hyz⟩ := h' k y hy
  exact ⟨z, hz, hxy.trans hyz⟩

/-- The index holds nothing above the entry, so the entry may still come to be
buried. -/
def Exposed (r : Replica) (x : Entry) : Prop :=
  ∀ y, r.entries[x.path]? = some y → y.version ≤ x.version

theorem Exposed.of_grows {x : Entry} (h : Grows r r') (hx : Exposed r' x) : Exposed r x := by
  intro y hy
  obtain ⟨z, hz, hyz⟩ := h x.path y hy
  exact hyz.trans (hx z hz)

open scoped Classical in
/-- The live entries that may still come to be buried. -/
noncomputable def exposed (live : Finset Entry) (r : Replica) : Finset Entry :=
  live.filter (Exposed r)

theorem exposed_subset (h : Grows r r') : exposed live r' ⊆ exposed live r := by
  classical
  exact Finset.monotone_filter_right _ fun x _ hx ↦ Exposed.of_grows h hx

/-- What a part of a pull leads to: something was buried for good, or the indexes
were merged. -/
structure Pulled (live : Finset Entry) (A B A' : Replica) : Prop where
  peers : Peers live A' B
  grows : Grows A A'
  progress : exposed live A' ⊂ exposed live A ∨
    ∀ k : Str, A'.entries[k]? = A.entries[k]? ∨ A'.entries[k]? = B.entries[k]?

theorem Pulled.refl (h : Peers live A B) : Pulled live A B A :=
  ⟨h, .refl A, .inr fun _ ↦ .inl rfl⟩

theorem Pulled.trans (h : Pulled live A B A') (h' : Pulled live A' B A'') :
    Pulled live A B A'' := by
  refine ⟨h'.peers, h.grows.trans h'.grows, ?_⟩
  rcases h.progress with hlt | hmerge
  · exact .inl (hlt.trans_le' (exposed_subset h'.grows))
  rcases h'.progress with hlt' | hmerge'
  · exact .inl (hlt'.trans_le (exposed_subset h.grows))
  · refine .inr fun k ↦ ?_
    rcases hmerge' k with hk | hk
    · rw [hk]
      exact hmerge k
    · exact .inr hk

/-! ## One entry -/

theorem lt_of_isNewer {x : Entry} (h : r.isNewer remote) (hx : r.entries[remote.path]? = some x) :
    x.version < remote.version := by
  rw [isNewer, hx] at h
  simpa using h

theorem grows_recordRemote (hr : r.Sound) (h : r.isNewer remote) :
    Grows r (recordRemote r remote).1 := by
  intro k x hx
  rcases recordRemote_cases r remote k with heq | ⟨-, old, v, hold, -, hnew, -, hlt, -⟩
  · rw [heq, getElem?_receive]
    split
    · next hk => exact ⟨remote, rfl, (lt_of_isNewer h (hk ▸ hx)).le⟩
    · exact ⟨x, hx, le_rfl⟩
  · obtain rfl := Option.some.inj (hold.symm.trans hx)
    exact ⟨_, hnew, (Version.lt_of_lamport_lt (Nat.lt_of_le_of_lt (hr.lamport_le k _ hold) hlt)).le⟩

/-- Two nodes stay peers when one of them records an entry of the other. -/
theorem Peers.recordRemote (h : Peers live A B) (hB : B.entries[remote.path]? = some remote) :
    Peers live (recordRemote A remote).1 B := by
  obtain ⟨cs, -, hst⟩ := stamps_recordRemote A remote
  have horigin := (issues_recordRemote A remote).origin_eq
  have hle := (issues_recordRemote A remote).lamport_le
  have hunc : remote.kind = .tombstone → A.isVersionGced remote.version = false := by
    intro ht
    rw [isVersionGced, h.gcWatermark_eq]
    exact h.sound_right.uncovered _ _ hB ht
  have hreceive : (A.receive remote, ([] : List Change)).1.Sound := h.sound_left.receive hunc
  have hmoves := hreceive.moves_of_stamps hst
  refine ⟨⟨?_, ?_, hreceive.moves hmoves, h.sound_right, fun k e he ↦ ?_,
    h.atOwnPaths_right, fun k x y hx hy hv ↦ ?_⟩, fun k e he ho ↦ ?_, fun k e he ho ↦ ?_,
    fun k e he hlive ↦ ?_, h.live_right⟩
  · rw [horigin]
    exact h.origin_ne
  · exact hst.grown.gcWatermark_eq.trans h.gcWatermark_eq
  · rcases of_getElem?_recordRemote he with hold | ⟨rfl, rfl⟩ | ⟨hp, -⟩
    · exact h.atOwnPaths_left k e hold
    · rfl
    · exact hp
  · rcases of_getElem?_recordRemote hx with hold | ⟨rfl, rfl⟩ | ⟨-, -, ho, hlt⟩
    · exact h.agree k x y hold hy hv
    · exact Option.some.inj (hB.symm.trans hy)
    · -- the peer has no version above the clock of the node that issues it
      rw [hv] at ho hlt
      exact absurd (h.hasSeen_left k y hy ho) hlt.not_ge
  · rw [horigin] at ho
    exact (h.hasSeen_left k e he ho).trans hle
  · rcases of_getElem?_recordRemote he with hold | ⟨rfl, rfl⟩ | ⟨-, -, ho', -⟩
    · exact h.hasSeen_right k e hold ho
    · exact h.sound_right.lamport_le _ _ hB
    · exact absurd (ho'.symm.trans ho) h.origin_ne
  · rcases of_getElem?_recordRemote he with hold | ⟨rfl, rfl⟩ | ⟨-, ht, -⟩
    · exact h.live_left k e hold hlive
    · exact h.live_right _ _ hB hlive
    · exact absurd ht hlive

/-- A live entry that is buried is buried for good. -/
theorem exposed_ssubset (hr : r.Sound) (hpaths : AtOwnPaths r.entries)
    (hlist : ∀ (k : Str) (e : Entry), r.entries[k]? = some e → e.kind ≠ .tombstone → e ∈ live)
    (hgrows : Grows r r') (hk : Entombs r r' k) : exposed live r' ⊂ exposed live r := by
  classical
  obtain ⟨old, v, hold, hlive, hnew, -, hlt, -⟩ := hk
  obtain rfl := hpaths k old hold
  rw [Finset.ssubset_iff_of_subset (exposed_subset hgrows)]
  refine ⟨old, Finset.mem_filter.mpr ⟨hlist _ _ hold hlive, fun y hy ↦ ?_⟩, fun hmem ↦ ?_⟩
  · obtain rfl := Option.some.inj (hold.symm.trans hy)
    exact le_rfl
  · have hle := Version.lamport_le_of_le ((Finset.mem_filter.mp hmem).2 _ hnew)
    exact absurd (hr.lamport_le _ _ hold) (hlt.trans_le hle).not_ge

/-- An entry that comes in buries something for good, or it is merged. -/
theorem Peers.pulled_recordRemote (h : Peers live A B) (hB : B.entries[remote.path]? = some remote)
    (hnew : A.isNewer remote) : Pulled live A B (Replica.recordRemote A remote).1 := by
  have hgrows := grows_recordRemote h.sound_left hnew
  refine ⟨h.recordRemote hB, hgrows, ?_⟩
  by_cases hex : ∃ k, Entombs A (Replica.recordRemote A remote).1 k
  · obtain ⟨k, hk⟩ := hex
    exact .inl (exposed_ssubset h.sound_left h.atOwnPaths_left h.live_left hgrows hk)
  · refine .inr fun k ↦ ?_
    rcases recordRemote_cases A remote k with heq | ⟨-, hk⟩
    · rw [heq, getElem?_receive]
      split
      · next hk => exact .inr (hk ▸ hB.symm)
      · exact .inl rfl
    · exact absurd ⟨k, hk⟩ hex

/-! ## Whole pulls -/

/-- Entries are accepted if they are newer.  The program does that as long as the
paths are valid and the tombstones not covered. -/
def AcceptsNewer (accepts : Replica → Entry → Bool) (A B : Replica) : Prop :=
  accepts = isNewer ∨ accepts = shouldAcceptRemote ∧
    ∀ k, k ∈ A.entries ∨ k ∈ B.entries → ValidRemotePath k

variable {accepts : Replica → Entry → Bool}

theorem AcceptsNewer.eq_isNewer (h : AcceptsNewer accepts A B) (hp : Peers live A B)
    (hB : B.entries[remote.path]? = some remote) : accepts A remote = A.isNewer remote := by
  rcases h with rfl | ⟨rfl, hvalid⟩
  · rfl
  · have hpath : ValidRemotePath remote.path :=
      hvalid _ (.inr (ExtTreeMap.mem_iff_isSome_getElem?.mpr (by simp [hB])))
    have hunc : (remote.kind = .tombstone && A.isVersionGced remote.version) = false := by
      rw [isVersionGced, hp.gcWatermark_eq]
      by_cases ht : remote.kind = .tombstone
      · have hg := hp.sound_right.uncovered _ _ hB ht
        rw [isVersionGced] at hg
        simp [hg]
      · simp [ht]
    rw [shouldAcceptRemote, isNewer]
    simp only [hpath, hunc, not_true_eq_false, Bool.false_eq_true, ↓reduceIte]
    cases A.entries[remote.path]? <;> rfl

theorem AcceptsNewer.recordRemote (h : AcceptsNewer accepts A B)
    (hB : B.entries[remote.path]? = some remote) :
    AcceptsNewer accepts (Replica.recordRemote A remote).1 B := by
  refine h.imp id (And.imp id fun hvalid k hk ↦ hvalid k (hk.elim (fun hk ↦ ?_) .inr))
  obtain ⟨x, hx⟩ := Option.isSome_iff_exists.mp (ExtTreeMap.mem_iff_isSome_getElem?.mp hk)
  rcases recordRemote_cases A remote k with heq | ⟨-, old, v, hold, -⟩
  · rw [heq, getElem?_receive] at hx
    split at hx
    · next hk => exact .inr (ExtTreeMap.mem_iff_isSome_getElem?.mpr (by simp [← hk, hB]))
    · exact .inl (ExtTreeMap.mem_iff_isSome_getElem?.mpr (by simp [hx]))
  · exact .inl (ExtTreeMap.mem_iff_isSome_getElem?.mpr (by simp [hold]))

theorem AcceptsNewer.symm (h : AcceptsNewer accepts A B) : AcceptsNewer accepts B A :=
  h.imp id (And.imp id fun hvalid k hk ↦ hvalid k hk.symm)

/-- A visited entry is recorded or left out; in both cases the index holds something
at least as new at its path. -/
theorem Peers.pulled_pullEntry (h : Peers live A B) (hacc : AcceptsNewer accepts A B)
    (hB : B.entries[remote.path]? = some remote) :
    Pulled live A B (pullEntry accepts A remote) ∧
      AcceptsNewer accepts (pullEntry accepts A remote) B ∧
      ∃ y, (pullEntry accepts A remote).entries[remote.path]? = some y ∧
        remote.version ≤ y.version := by
  rw [pullEntry, hacc.eq_isNewer h hB]
  cases hnew : A.isNewer remote with
  | true =>
    refine ⟨h.pulled_recordRemote hB hnew, hacc.recordRemote hB, remote, ?_, le_rfl⟩
    rcases recordRemote_cases A remote remote.path with heq | ⟨hne, -⟩
    · exact heq.trans ((getElem?_receive _).trans (if_pos rfl))
    · exact absurd rfl hne
  | false =>
    refine ⟨.refl h, hacc, ?_⟩
    rw [isNewer] at hnew
    cases hA : A.entries[remote.path]? with
    | none => simp [hA] at hnew
    | some y => exact ⟨y, hA, by simpa [hA] using hnew⟩

theorem Peers.pulled_pull {visited : List Entry} (h : Peers live A B)
    (hacc : AcceptsNewer accepts A B)
    (hB : ∀ remote ∈ visited, B.entries[remote.path]? = some remote) :
    Pulled live A B (pull accepts A visited) ∧ AcceptsNewer accepts (pull accepts A visited) B ∧
      ∀ remote ∈ visited, ∃ y, (pull accepts A visited).entries[remote.path]? = some y ∧
        remote.version ≤ y.version := by
  induction visited generalizing A with
  | nil => exact ⟨.refl h, hacc, fun _ hmem ↦ absurd hmem List.not_mem_nil⟩
  | cons e visited ih =>
    obtain ⟨hpulled, hacc', x, hx, hex⟩ := h.pulled_pullEntry hacc (hB e List.mem_cons_self)
    obtain ⟨hrest, hacc'', hheld⟩ := ih hpulled.peers hacc' fun remote hmem ↦
      hB remote (List.mem_cons_of_mem _ hmem)
    refine ⟨hpulled.trans hrest, hacc'', fun remote hmem ↦ ?_⟩
    rcases List.mem_cons.mp hmem with rfl | hmem
    · obtain ⟨y, hy, hxy⟩ := hrest.grows _ x hx
      exact ⟨y, hy, hex.trans hxy⟩
    · exact hheld remote hmem

/-! ## Rounds -/

/-- The indexes are equal, and no further pull of either node changes it. -/
def Settled (accepts : Replica → Entry → Bool) (A B : Replica) : Prop :=
  A.entries = B.entries ∧ ∀ visited : List Entry,
    (∀ e ∈ visited, B.entries[e.path]? = some e) →
    pull accepts A visited = A ∧ pull accepts B visited = B

/-- Nothing is newer in an equal index. -/
theorem pull_eq_self (h : Peers live A B) (hacc : AcceptsNewer accepts A B)
    (heq : A.entries = B.entries) {visited : List Entry}
    (hB : ∀ e ∈ visited, B.entries[e.path]? = some e) : pull accepts A visited = A := by
  induction visited with
  | nil => rfl
  | cons e visited ih =>
    have he := hB e List.mem_cons_self
    have hA : A.entries[e.path]? = some e := by rw [heq, he]
    have hself : pullEntry accepts A e = A := by
      rw [pullEntry, hacc.eq_isNewer h he, isNewer, hA]
      simp
    rw [pull, List.foldl_cons, hself]
    exact ih fun e' hmem ↦ hB e' (List.mem_cons_of_mem _ hmem)

theorem settled_of_entries_eq (h : Peers live A B) (hacc : AcceptsNewer accepts A B)
    (heq : A.entries = B.entries) : Settled accepts A B :=
  ⟨heq, fun _ hB ↦ ⟨pull_eq_self h hacc heq hB,
    pull_eq_self h.symm hacc.symm heq.symm fun e he ↦ heq ▸ hB e he⟩⟩

/-- An order visits the entries of an index, each of them. -/
theorem mem_of_perm_values {visited : List Entry} {entries : Index} (h : AtOwnPaths entries)
    (hv : visited.Perm (OrdMap.values entries)) {e : Entry} :
    e ∈ visited ↔ entries[e.path]? = some e := by
  rw [hv.mem_iff, OrdMap.mem_values_iff]
  constructor
  · rintro ⟨k, hk⟩
    obtain rfl := h k e hk
    exact hk
  · exact fun he ↦ ⟨e.path, he⟩

/-- A pull that only merges leaves the indexes equal if the peer had pulled before. -/
theorem entries_eq_of_merge {B' : Replica} (h : Peers live A B')
    (hB : ∀ k : Str, B'.entries[k]? = B.entries[k]? ∨ B'.entries[k]? = A.entries[k]?)
    (hfromB : ∀ (k : Str) (e : Entry), B.entries[k]? = some e →
      ∃ y, A.entries[k]? = some y ∧ e.version ≤ y.version)
    (hfromA : ∀ (k : Str) (e : Entry), A.entries[k]? = some e →
      ∃ y, B'.entries[k]? = some y ∧ e.version ≤ y.version) : A.entries = B'.entries := by
  have heq : ∀ k : Str, A.entries[k]? = B'.entries[k]? := by
    intro k
    cases hA : A.entries[k]? with
    | some x =>
      obtain ⟨y, hy, hxy⟩ := hfromA k x hA
      rw [hy]
      rcases hB k with hb | hb
      · obtain ⟨z, hz, hyz⟩ := hfromB k y (hb.symm.trans hy)
        obtain rfl := Option.some.inj (hA.symm.trans hz)
        exact congrArg some (h.agree k x y hA hy (le_antisymm hxy hyz))
      · exact hA.symm.trans (hb.symm.trans hy)
    | none =>
      rcases hB k with hb | hb
      · cases hBk : B.entries[k]? with
        | none => exact (hb.trans hBk).symm
        | some y =>
          obtain ⟨z, hz, -⟩ := hfromB k y hBk
          exact absurd (hA.symm.trans hz) (by simp)
      · exact (hb.trans hA).symm
  exact OrdMap.ext_graph fun k e ↦ by rw [heq]

/-- A round buries something for good at the second node, or it leaves the nodes
settled. -/
theorem Peers.round (h : Peers live A B) (hacc : AcceptsNewer accepts A B) {vA vB : List Entry}
    (hvA : vA.Perm (OrdMap.values B.entries))
    (hvB : vB.Perm (OrdMap.values (pull accepts A vA).entries)) :
    let A' := pull accepts A vA
    let B' := pull accepts B vB
    Peers live A' B' ∧ AcceptsNewer accepts A' B' ∧
      (exposed live B' ⊂ exposed live B ∨ Settled accepts A' B') := by
  intro A' B'
  obtain ⟨hpulled, hacc', hheld⟩ := h.pulled_pull hacc fun e he ↦
    (mem_of_perm_values h.atOwnPaths_right hvA).mp he
  obtain ⟨hpulled', hacc'', hheld'⟩ := hpulled.peers.symm.pulled_pull hacc'.symm fun e he ↦
    (mem_of_perm_values hpulled.peers.atOwnPaths_left hvB).mp he
  have hpeers : Peers live A' B' := hpulled'.peers.symm
  refine ⟨hpeers, hacc''.symm, hpulled'.progress.imp id fun hmerge ↦ ?_⟩
  refine settled_of_entries_eq hpeers hacc''.symm ?_
  refine entries_eq_of_merge hpeers hmerge (fun k e he ↦ ?_) fun k e he ↦ ?_
  · obtain rfl := h.atOwnPaths_right k e he
    exact hheld e ((mem_of_perm_values h.atOwnPaths_right hvA).mpr he)
  · obtain rfl := hpulled.peers.atOwnPaths_left k e he
    exact hheld' e ((mem_of_perm_values hpulled.peers.atOwnPaths_left hvB).mpr he)

variable {visit : Nat → Index → List Entry}

theorem Peers.rounds (h : Peers live A B) (hacc : AcceptsNewer accepts A B)
    (hvisit : VisitsAll visit) (n : Nat) :
    Peers live (rounds accepts visit A B n).1 (rounds accepts visit A B n).2 ∧
      AcceptsNewer accepts (rounds accepts visit A B n).1 (rounds accepts visit A B n).2 := by
  induction n with
  | zero => exact ⟨h, hacc⟩
  | succ n ih =>
    obtain ⟨hpeers, hacc', -⟩ := ih.1.round ih.2 (hvisit (2 * n) _) (hvisit (2 * n + 1) _)
    exact ⟨hpeers, hacc'⟩

/-- After some round the nodes are settled. -/
theorem Peers.exists_settled (h : Peers live A B) (hacc : AcceptsNewer accepts A B)
    (hvisit : VisitsAll visit) : ∃ n,
      Settled accepts (Replica.rounds accepts visit A B n).1 (Replica.rounds accepts visit A B n).2 := by
  by_contra hnever
  rw [not_exists] at hnever
  have hshrink : ∀ n, exposed live (Replica.rounds accepts visit A B (n + 1)).2 ⊂
      exposed live (Replica.rounds accepts visit A B n).2 := by
    intro n
    obtain ⟨hpeers, hacc'⟩ := h.rounds hacc hvisit n
    obtain ⟨-, -, hround⟩ := hpeers.round hacc' (hvisit (2 * n) _) (hvisit (2 * n + 1) _)
    exact hround.resolve_right (hnever (n + 1))
  -- a set cannot shrink for ever
  have hcard : ∀ n, (exposed live (Replica.rounds accepts visit A B n).2).card + n ≤
      (exposed live B).card := by
    intro n
    induction n with
    | zero => exact le_rfl
    | succ n ih =>
      have hlt := Finset.card_lt_card (hshrink n)
      omega
  have hlast := hcard ((exposed live B).card + 1)
  omega

/-- The order of the paths. -/
def inOrder : Nat → Index → List Entry := fun _ entries ↦ OrdMap.values entries

theorem visitsAll_inOrder : VisitsAll inOrder := fun _ _ ↦ .refl _

theorem parentsFirst_inOrder : ParentsFirst inOrder := by
  intro n entries h
  refine List.pairwise_map.mpr (ExtTreeMap.ordered_keys_toList.imp_of_mem fun {a b} ha hb hlt ↦ ?_)
  rw [h _ _ (ExtTreeMap.mem_toList_iff_getElem?_eq_some.mp ha),
    h _ _ (ExtTreeMap.mem_toList_iff_getElem?_eq_some.mp hb)]
  exact SlashPath.not_below_of_compare_lt hlt

deriving instance DecidableEq for Replica

/-- A node whose clock fell behind the versions it has issued. -/
def behind : Replica where
  origin := lit "A"
  lamport := 10
  gcWatermark := ∅
  entries := indexOf [⟨lit "p", .dir, none, none, 0, none, ⟨3, lit "A"⟩⟩,
    ⟨lit "p/x", .file, none, none, 1, some 0o644, ⟨5, lit "A"⟩⟩]
  minted := []

/-- Its peer, which holds a tombstone of the first node and has put a file in place
of the directory. -/
def ahead : Replica where
  origin := lit "B"
  lamport := 12
  gcWatermark := ∅
  entries := indexOf [⟨lit "p", .file, none, none, 1, none, ⟨10, lit "B"⟩⟩,
    ⟨lit "p/x", .tombstone, none, none, 0, none, ⟨11, lit "A"⟩⟩]
  minted := []

instance (r : Replica) : Decidable r.Sound :=
  decidable_of_iff ((∀ kv ∈ r.entries.toList, kv.2.version.lamport ≤ r.lamport ∧
      (kv.2.kind = .tombstone → r.isVersionGced kv.2.version = false)) ∧ r.ownWatermark ≤ r.lamport)
    (by
      constructor
      · rintro ⟨h, hown⟩
        refine ⟨fun k e he ↦ ?_, hown, fun k e he ↦ ?_⟩
        · exact (h (k, e) (ExtTreeMap.mem_toList_iff_getElem?_eq_some.mpr he)).1
        · exact (h (k, e) (ExtTreeMap.mem_toList_iff_getElem?_eq_some.mpr he)).2
      · intro h
        refine ⟨fun kv hkv ↦ ?_, h.ownWatermark_le⟩
        have hkv := ExtTreeMap.mem_toList_iff_getElem?_eq_some.mp hkv
        exact ⟨h.lamport_le _ _ hkv, h.uncovered _ _ hkv⟩)

instance (entries : Index) : Decidable (AtOwnPaths entries) :=
  decidable_of_iff (∀ kv ∈ entries.toList, kv.2.path = kv.1)
    ⟨fun h k e he ↦ h (k, e) (ExtTreeMap.mem_toList_iff_getElem?_eq_some.mpr he),
      fun h _ hkv ↦ h _ _ (ExtTreeMap.mem_toList_iff_getElem?_eq_some.mp hkv)⟩

theorem idle_behind_ahead : Idle behind ahead where
  origin_ne := by decide
  gcWatermark_eq := rfl
  sound_left := by decide +kernel
  sound_right := by decide +kernel
  atOwnPaths_left := by decide +kernel
  atOwnPaths_right := by decide +kernel
  agree := by
    have hne : ∀ x ∈ behind.entries.toList, ∀ y ∈ ahead.entries.toList,
        x.2.version ≠ y.2.version := by decide +kernel
    intro k x y hx hy hv
    exact absurd hv (hne (k, x) (ExtTreeMap.mem_toList_iff_getElem?_eq_some.mpr hx) (k, y)
      (ExtTreeMap.mem_toList_iff_getElem?_eq_some.mpr hy))

end Replica

end Lilsync
