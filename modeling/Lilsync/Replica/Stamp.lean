import Lilsync.Replica

/-!
# What recording does to the index

Every method that records local changes does it by stamping entries with fresh
versions, one after the other (`Stamps`).  So whatever a single stamp keeps, they
all keep; `Grown` collects the facts about clocks, versions and changes that
follow.
-/

namespace Lilsync

open Std (ExtTreeMap)
open Lilsync.Lib

namespace Replica

variable {st st' st'' : Recorded} {path : Str}

/-! ## Stamps -/

/-- One entry is stamped with the next version and put in place of what the
index held at its path. -/
inductive Stamped : Recorded → Recorded → Prop where
  | stamp (st : Recorded) (path : Str) (make : Version → Entry)
      (hpath : ∀ v, (make v).path = path) (hversion : ∀ v, (make v).version = v) :
      Stamped st (stamp st path st.1.entries[path]? make)

/-- Entries are stamped one after the other. -/
abbrev Stamps : Recorded → Recorded → Prop := Relation.ReflTransGen Stamped

theorem stamps_foldl {α : Type} {f : Recorded → α → Recorded} {l : List α}
    (h : ∀ st, ∀ a ∈ l, Stamps st (f st a)) (st : Recorded) : Stamps st (l.foldl f st) := by
  induction l generalizing st with
  | nil => exact .refl
  | cons a l ih =>
    exact (h st a List.mem_cons_self).trans
      (ih (fun st b hb ↦ h st b (List.mem_cons_of_mem _ hb)) (f st a))

theorem stamps_tombstonePath (st : Recorded) (path : Str) : Stamps st (tombstonePath st path) := by
  rw [tombstonePath]
  cases h : st.1.entries[path]? with
  | none => exact .refl
  | some old =>
    dsimp only
    split
    · exact .refl
    · exact h ▸ .single (.stamp st path _ (fun _ ↦ rfl) fun _ ↦ rfl)

theorem stamps_tombstoneDescendants (relative : Str) (st : Recorded) :
    Stamps st (tombstoneDescendants relative st) :=
  stamps_foldl (fun st path _ ↦ stamps_tombstonePath st path) st

theorem stamps_tombstoneChildDescendants (relative : Str) (st : Recorded) :
    Stamps st (tombstoneChildDescendants relative st) :=
  stamps_foldl (fun st path _ ↦ stamps_tombstonePath st path) st

theorem stamps_updateEntry {live : Entry} (hlive : live.path = path) (st : Recorded) :
    Stamps st (updateEntry path live st) := by
  rw [updateEntry]
  dsimp only
  split
  · exact .refl
  · have hstamp : Stamps st (stamp st path st.1.entries[path]? fun version ↦ { live with version }) :=
      .single (.stamp st path _ (fun _ ↦ hlive) fun _ ↦ rfl)
    split
    · exact hstamp.trans (stamps_tombstoneChildDescendants path _)
    · exact hstamp

/-! ## What stamps leave behind -/

/-- The entry was stamped by this node after its clock stood at `lamport`. -/
structure Fresh (origin : Str) (lamport lamport' : Nat) (k : Str) (e : Entry) : Prop where
  path_eq : e.path = k
  origin_eq : e.version.origin = origin
  lt_lamport : lamport < e.version.lamport
  lamport_le : e.version.lamport ≤ lamport'

/-- The clock did not go back, and what was issued since is above it. -/
structure Issues (r r' : Replica) : Prop where
  origin_eq : r'.origin = r.origin
  lamport_le : r.lamport ≤ r'.lamport
  minted : ∃ vs, r'.minted = vs ++ r.minted ∧
    vs.Pairwise (fun v w ↦ w.lamport < v.lamport) ∧
    ∀ v ∈ vs, v.origin = r.origin ∧ r.lamport < v.lamport ∧ v.lamport ≤ r'.lamport

namespace Issues

variable {r r' r'' : Replica}

theorem of_minted_eq (ho : r'.origin = r.origin) (hl : r.lamport ≤ r'.lamport)
    (hm : r'.minted = r.minted) : Issues r r' := ⟨ho, hl, [], by simp [hm]⟩

theorem rfl' (r : Replica) : Issues r r := of_minted_eq rfl le_rfl rfl

theorem trans (h : Issues r r') (h' : Issues r' r'') : Issues r r'' := by
  obtain ⟨vs, hvs, hpair, hv⟩ := h.minted
  obtain ⟨ws, hws, hpair', hw⟩ := h'.minted
  refine ⟨h'.origin_eq.trans h.origin_eq, h.lamport_le.trans h'.lamport_le, ws ++ vs,
    by rw [hws, hvs, List.append_assoc], ?_, fun v hmem ↦ ?_⟩
  · exact List.pairwise_append.mpr ⟨hpair', hpair, fun w hwm v hvm ↦
      Nat.lt_of_le_of_lt (hv v hvm).2.2 (hw w hwm).2.1⟩
  · rcases List.mem_append.mp hmem with hm | hm
    · obtain ⟨h₁, h₂, h₃⟩ := hw v hm
      exact ⟨h₁.trans h.origin_eq, Nat.lt_of_le_of_lt h.lamport_le h₂, h₃⟩
    · obtain ⟨h₁, h₂, h₃⟩ := hv v hm
      exact ⟨h₁, h₂, h₃.trans h'.lamport_le⟩

end Issues

/-- What stamping leads to: every entry is the old one or a fresh one, every new
change names a fresh entry, and the versions issued are new and different. -/
structure Grown (st st' : Recorded) : Prop extends Issues st.1 st'.1 where
  gcWatermark_eq : st'.1.gcWatermark = st.1.gcWatermark
  entries : ∀ k : Str, st'.1.entries[k]? = st.1.entries[k]? ∨
    ∃ e, st'.1.entries[k]? = some e ∧ Fresh st.1.origin st.1.lamport st'.1.lamport k e
  changes : ∃ cs, st'.2 = st.2 ++ cs ∧ ∀ c ∈ cs,
    ∃ e, st'.1.entries[c.path]? = some e ∧ Fresh st.1.origin st.1.lamport st'.1.lamport c.path e

theorem Fresh.mono {origin k : Str} {a a' b b' : Nat} {e : Entry} (h : Fresh origin a b k e)
    (ha : a' ≤ a) (hb : b ≤ b') : Fresh origin a' b' k e :=
  ⟨h.path_eq, h.origin_eq, Nat.lt_of_le_of_lt ha h.lt_lamport, Nat.le_trans h.lamport_le hb⟩

namespace Grown

theorem rfl' (st : Recorded) : Grown st st where
  toIssues := .rfl' st.1
  gcWatermark_eq := rfl
  entries _ := Or.inl rfl
  changes := ⟨[], by simp⟩

theorem trans (h : Grown st st') (h' : Grown st' st'') : Grown st st'' where
  toIssues := h.toIssues.trans h'.toIssues
  gcWatermark_eq := h'.gcWatermark_eq.trans h.gcWatermark_eq
  entries k := by
    rcases h'.entries k with heq | ⟨e, he, hf⟩
    · rw [heq]
      exact (h.entries k).imp id fun ⟨e, he, hf⟩ ↦
        ⟨e, he, hf.mono (Nat.le_refl _) h'.lamport_le⟩
    · exact Or.inr ⟨e, he, h.origin_eq ▸ hf.mono h.lamport_le (Nat.le_refl _)⟩
  changes := by
    obtain ⟨cs, hcs, hfresh⟩ := h.changes
    obtain ⟨cs', hcs', hfresh'⟩ := h'.changes
    refine ⟨cs ++ cs', by rw [hcs', hcs, List.append_assoc], fun c hc ↦ ?_⟩
    rcases List.mem_append.mp hc with hc | hc
    · obtain ⟨e, he, hf⟩ := hfresh c hc
      rcases h'.entries c.path with heq | ⟨e', he', hf'⟩
      · exact ⟨e, heq.trans he, hf.mono (Nat.le_refl _) h'.lamport_le⟩
      · exact ⟨e', he', h.origin_eq ▸ hf'.mono h.lamport_le (Nat.le_refl _)⟩
    · obtain ⟨e, he, hf⟩ := hfresh' c hc
      exact ⟨e, he, h.origin_eq ▸ hf.mono h.lamport_le (Nat.le_refl _)⟩

end Grown

/-- A single stamp. -/
theorem grown_stamp (st : Recorded) {make : Version → Entry} (hpath : ∀ v, (make v).path = path)
    (hversion : ∀ v, (make v).version = v) :
    Grown st (stamp st path st.1.entries[path]? make) := by
  have hfresh : Fresh st.1.origin st.1.lamport (st.1.lamport + 1) path
      (make ⟨st.1.lamport + 1, st.1.origin⟩) :=
    ⟨hpath _, by rw [hversion], by rw [hversion]; exact Nat.lt_succ_self _, by rw [hversion]⟩
  refine ⟨⟨rfl, Nat.le_succ _, [_], rfl, by simp, ?_⟩, rfl, fun k ↦ ?_, _, rfl, fun c hc ↦ ?_⟩
  · intro v hv
    rw [List.mem_singleton.mp hv]
    exact ⟨rfl, Nat.lt_succ_self _, Nat.le_refl _⟩
  · rw [stamp]
    dsimp only [nextVersion, insert]
    rw [OrdMap.getElem?_insert_eq]
    split
    · next hk => exact Or.inr ⟨_, rfl, hk ▸ hfresh⟩
    · exact Or.inl rfl
  · rw [List.mem_singleton.mp hc]
    exact ⟨_, by simp [stamp, nextVersion, insert], hfresh⟩

/-- Any number of stamps. -/
theorem Stamps.grown (h : Stamps st st') : Grown st st' := by
  induction h with
  | refl => exact Grown.rfl' st
  | tail _ hstep ih =>
    obtain ⟨path, make, hpath, hversion⟩ := hstep
    exact ih.trans (grown_stamp _ hpath hversion)

/-! ## Recording something or nothing -/

/-- At least one change was noted. -/
def Adds (st st' : Recorded) : Prop := ∃ c cs, st'.2 = st.2 ++ c :: cs

theorem Adds.trans_stamps (h : Adds st st') (h' : Stamps st' st'') : Adds st st'' := by
  obtain ⟨c, cs, hcs⟩ := h
  obtain ⟨cs', hcs', -⟩ := h'.grown.changes
  exact ⟨c, cs ++ cs', by rw [hcs', hcs, List.append_assoc, List.cons_append]⟩

theorem adds_stamp (st : Recorded) (path : Str) (old : Option Entry) (make : Version → Entry) :
    Adds st (stamp st path old make) := ⟨_, [], rfl⟩

/-- Recording nothing changes nothing, and recording something moves the clock. -/
theorem Stamps.eq_or_lt (h : Stamps st st') : st' = st ∨ st.1.lamport < st'.1.lamport := by
  rcases Relation.ReflTransGen.cases_tail h with rfl | ⟨st₁, hst, path, make, -, -⟩
  · exact .inl rfl
  · exact .inr (Nat.lt_succ_of_le (Stamps.grown hst).lamport_le)

theorem Stamps.lamport_lt_of_adds (h : Stamps st st') (hadds : Adds st st') :
    st.1.lamport < st'.1.lamport := by
  refine h.eq_or_lt.resolve_left ?_
  rintro rfl
  obtain ⟨c, cs, hcs⟩ := hadds
  simp at hcs

/-- A loop whose body does nothing where `P` holds and notes a change where it
does not: it does nothing if `P` holds throughout, and notes a change otherwise. -/
theorem foldl_eq_self_or_adds {α : Type} {f : Recorded → α → Recorded}
    {P : Recorded → α → Prop} {l : List α} (st : Recorded)
    (hstamps : ∀ st, ∀ a ∈ l, Stamps st (f st a)) (hself : ∀ st, ∀ a ∈ l, P st a → f st a = st)
    (hadds : ∀ st, ∀ a ∈ l, ¬ P st a → Adds st (f st a)) :
    ((∀ a ∈ l, P st a) → l.foldl f st = st) ∧ ((∃ a ∈ l, ¬ P st a) → Adds st (l.foldl f st)) := by
  induction l generalizing st with
  | nil => simp
  | cons a l ih =>
    have ih' := ih st (fun st b hb ↦ hstamps st b (List.mem_cons_of_mem _ hb))
      (fun st b hb ↦ hself st b (List.mem_cons_of_mem _ hb))
      fun st b hb ↦ hadds st b (List.mem_cons_of_mem _ hb)
    have ha := List.mem_cons_self (a := a) (l := l)
    rw [List.foldl_cons]
    by_cases hP : P st a
    · rw [hself st a ha hP]
      exact ⟨fun h ↦ ih'.1 fun b hb ↦ h b (List.mem_cons_of_mem _ hb), fun ⟨b, hb, hn⟩ ↦
        ih'.2 ⟨b, (List.mem_cons.mp hb).resolve_left fun h ↦ hn (h ▸ hP), hn⟩⟩
    · refine ⟨fun h ↦ absurd (h a ha) hP, fun _ ↦ ?_⟩
      exact (hadds st a ha hP).trans_stamps
        (stamps_foldl (fun st b hb ↦ hstamps st b (List.mem_cons_of_mem _ hb)) _)

/-- The index holds no live entry at the path. -/
def NotLive (entries : Index) (path : Str) : Prop :=
  ∀ e, entries[path]? = some e → e.kind = .tombstone

theorem tombstonePath_eq_self (h : NotLive st.1.entries path) : tombstonePath st path = st := by
  rw [tombstonePath]
  cases he : st.1.entries[path]? with
  | none => rfl
  | some old => simp [h old he]

theorem adds_tombstonePath (h : ¬ NotLive st.1.entries path) : Adds st (tombstonePath st path) := by
  obtain ⟨e, he, hk⟩ : ∃ e, st.1.entries[path]? = some e ∧ e.kind ≠ .tombstone := by
    simpa [NotLive] using h
  rw [tombstonePath, he]
  simp only [hk, ↓reduceIte]
  exact adds_stamp st path _ _

theorem foldl_tombstonePath (l : List Str) (st : Recorded) :
    ((∀ p ∈ l, NotLive st.1.entries p) → l.foldl tombstonePath st = st) ∧
      ((∃ p ∈ l, ¬ NotLive st.1.entries p) → Adds st (l.foldl tombstonePath st)) :=
  foldl_eq_self_or_adds (P := fun st p ↦ NotLive st.1.entries p) st
    (fun st p _ ↦ stamps_tombstonePath st p) (fun _ _ _ ↦ tombstonePath_eq_self)
    fun _ _ _ ↦ adds_tombstonePath

/-- The index has the entry already, up to its version. -/
def Matches (entries : Index) (path : Str) (live : Entry) : Prop :=
  ∃ old, entries[path]? = some old ∧ sameObservedState old live

theorem updateEntry_eq_self {live : Entry} (h : Matches st.1.entries path live) :
    updateEntry path live st = st := by
  obtain ⟨old, hold, hsame⟩ := h
  simp [updateEntry, hold, hsame]

theorem adds_updateEntry {live : Entry} (h : ¬ Matches st.1.entries path live) :
    Adds st (updateEntry path live st) := by
  have hany : st.1.entries[path]?.any (sameObservedState · live) = false := by
    cases he : st.1.entries[path]? with
    | none => rfl
    | some old =>
      rw [Option.any_some, Bool.eq_false_iff]
      exact fun hsame ↦ h ⟨old, he, hsame⟩
  rw [updateEntry]
  simp only [hany, Bool.false_eq_true, ↓reduceIte]
  split
  · exact (adds_stamp st path _ _).trans_stamps (stamps_tombstoneChildDescendants path _)
  · exact adds_stamp st path _ _

/-! ## Remote entries -/

/-- The replica with a remote entry in it, before anything is buried. -/
def receive (r : Replica) (remote : Entry) : Replica :=
  { r with lamport := max r.lamport remote.version.lamport }.insert remote.path remote

/-- Recording a remote entry receives it and stamps tombstones. -/
theorem stamps_recordRemote (r : Replica) (remote : Entry) :
    ∃ cs, (recordRemote r remote).2 = ⟨remote.path, r.entries[remote.path]?, remote⟩ :: cs ∧
      Stamps (r.receive remote, []) ((recordRemote r remote).1, cs) := by
  rw [recordRemote]
  dsimp only
  split
  · exact ⟨_, rfl, stamps_tombstoneChildDescendants remote.path _⟩
  · exact ⟨_, rfl, .refl⟩

/-- The index holds an entry for the path that is at least as new as the version,
and the clock has seen the version. -/
def Held (path : Str) (version : Version) (r : Replica) : Prop :=
  version.lamport ≤ r.lamport ∧
    ∃ e, r.entries[path]? = some e ∧ e.path = path ∧ version ≤ e.version

theorem Held.stamps {version : Version} (h : Held path version st.1) (hst : Stamps st st') :
    Held path version st'.1 := by
  obtain ⟨hl, e, he, hp, hv⟩ := h
  have hg := hst.grown
  refine ⟨hl.trans hg.lamport_le, ?_⟩
  rcases hg.entries path with heq | ⟨e', he', hf⟩
  · exact ⟨e, heq.trans he, hp, hv⟩
  · exact ⟨e', he', hf.path_eq, (Version.lt_of_lamport_lt (Nat.lt_of_le_of_lt hl hf.lt_lamport)).le⟩

variable {r : Replica} {remote : Entry}

theorem getElem?_receive (k : Str) :
    (r.receive remote).entries[k]? = if remote.path = k then some remote else r.entries[k]? :=
  OrdMap.getElem?_insert_eq ..

/-- Recording a remote entry keeps what is held once the entry is received. -/
theorem Held.recordRemote_of_receive {version : Version}
    (h : Held path version (r.receive remote)) : Held path version (recordRemote r remote).1 := by
  obtain ⟨cs, -, hst⟩ := stamps_recordRemote r remote
  have h' : Held path version (r.receive remote, ([] : List Change)).1 := h
  exact (h'.stamps hst :)

theorem held_recordRemote (r : Replica) (remote : Entry) :
    Held remote.path remote.version (recordRemote r remote).1 := by
  refine Held.recordRemote_of_receive ⟨Nat.le_max_right _ _, remote, ?_, rfl, le_rfl⟩
  rw [getElem?_receive, if_pos rfl]

theorem Held.receive {version : Version} (h : Held path version r)
    (hnew : ∀ e, r.entries[remote.path]? = some e → e.version < remote.version) :
    Held path version (r.receive remote) := by
  obtain ⟨hl, e, he, hp, hv⟩ := h
  refine ⟨hl.trans (Nat.le_max_left _ _), ?_⟩
  rw [getElem?_receive]
  split
  · next hk => exact ⟨remote, rfl, hk, hv.trans (hnew e (hk ▸ he)).le⟩
  · exact ⟨e, he, hp, hv⟩

theorem Held.recordRemote {version : Version} (h : Held path version r)
    (hnew : ∀ e, r.entries[remote.path]? = some e → e.version < remote.version) :
    Held path version (recordRemote r remote).1 :=
  (h.receive hnew).recordRemote_of_receive

theorem issues_recordRemote (r : Replica) (remote : Entry) :
    Issues r (recordRemote r remote).1 := by
  obtain ⟨cs, -, hst⟩ := stamps_recordRemote r remote
  have hreceive : Issues r (r.receive remote) := .of_minted_eq rfl (Nat.le_max_left _ _) rfl
  exact hreceive.trans hst.grown.toIssues

/-- The entry would be put in place of something with live entries below it. -/
def Buries (r : Replica) (remote : Entry) : Prop :=
  remote.kind ≠ .dir ∧ ∃ k, SlashPath.Below slash remote.path k ∧ ¬ NotLive r.entries k

/-- An entry that buries nothing is received and no version is issued. -/
theorem recordRemote_eq_of_not_buries (h : ¬ Buries r remote) :
    (recordRemote r remote).1 = r.receive remote := by
  rw [recordRemote]
  dsimp only
  split
  · next hk =>
    refine congrArg Prod.fst ((foldl_tombstonePath _ _).1 fun p hp ↦ ?_)
    have hbelow : SlashPath.Below slash remote.path p :=
      of_decide_eq_true (List.mem_filter.mp hp).2
    intro e he
    have hne : remote.path ≠ p := fun heq ↦ SlashPath.Below.irrefl (heq ▸ hbelow)
    have he' : (r.receive remote).entries[p]? = some e := he
    rw [getElem?_receive, if_neg hne] at he'
    by_contra hlive
    exact h ⟨hk, p, hbelow, fun hn ↦ hlive (hn e he')⟩
  · rfl

end Replica

end Lilsync
