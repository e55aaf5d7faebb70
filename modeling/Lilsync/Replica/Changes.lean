import Lilsync.Replica.Stamp

/-!
# The changes that are reported

A method that records something returns the changes it made, in the order it made
them.  Whoever makes them again on the old index gets the new one.  The invariant
`Tells` follows the recording: it labels each change by whether the node has issued
its version itself or received it.
-/

namespace Lilsync

open Std (ExtTreeMap)
open Lilsync.Lib

/-- Make the changes again. -/
def replay (changes : List Change) (entries : Index) : Index :=
  changes.foldl (fun entries c ↦ entries.insert c.path c.new) entries

theorem replay_append (cs cs' : List Change) (entries : Index) :
    replay (cs ++ cs') entries = replay cs' (replay cs entries) := List.foldl_append

/-- A path that no change names is left alone. -/
theorem getElem?_replay_of_ne {changes : List Change} {entries : Index} {k : Str}
    (h : ∀ c ∈ changes, c.path ≠ k) : (replay changes entries)[k]? = entries[k]? := by
  induction changes generalizing entries with
  | nil => rfl
  | cons c cs ih =>
    obtain ⟨hc, hcs⟩ := List.forall_mem_cons.mp h
    refine (ih hcs).trans ?_
    rw [OrdMap.getElem?_insert_eq, if_neg hc]

/-- A change, and whether the node has issued its version itself. -/
abbrev Labelled := Change × Bool

/-- The versions of the changes the node has issued itself, the latest first. -/
def issuedVersions (labelled : List Labelled) : List Version :=
  ((labelled.filter Prod.snd).map fun x ↦ x.1.new.version).reverse

/-- The version is the node's own, and greater than all in its index before and all in
the changes before. -/
structure Surpasses (r : Replica) (before : List Labelled) (version : Version) : Prop where
  origin_eq : version.origin = r.origin
  held : ∀ (k : Str) (e : Entry), r.entries[k]? = some e → e.version < version
  changed : ∀ x ∈ before, x.1.new.version < version

/-- The changes tell how the one replica became the other.  Every change either was
stamped by the node or has brought one of the received entries. -/
structure Reported (received : List Entry) (r : Replica) (changes : List Change) (r' : Replica) :
    Prop where
  replay_eq : replay changes r.entries = r'.entries
  old_eq : ∀ before c after, changes = before ++ c :: after →
    c.old = (replay before r.entries)[c.path]?
  untouched : ∀ k : Str, (∀ c ∈ changes, c.path ≠ k) → r'.entries[k]? = r.entries[k]?
  minted : ∃ labelled : List Labelled, labelled.map Prod.fst = changes ∧
    r'.minted = issuedVersions labelled ++ r.minted ∧
    ∀ before c own after, labelled = before ++ (c, own) :: after →
      if own then Surpasses r before c.new.version else c.new ∈ received

/-- What was recorded since the replica was the given one tells how it got where it
is. -/
structure Tells (received : List Entry) (r : Replica) (labelled : List Labelled) (st : Recorded) :
    Prop where
  changes_eq : labelled.map Prod.fst = st.2
  replay_eq : replay st.2 r.entries = st.1.entries
  old_eq : ∀ before c after, st.2 = before ++ c :: after →
    c.old = (replay before r.entries)[c.path]?
  minted_eq : st.1.minted = issuedVersions labelled ++ r.minted
  labelled : ∀ before c own after, labelled = before ++ (c, own) :: after →
    if own then Surpasses r before c.new.version else c.new ∈ received
  origin_eq : st.1.origin = r.origin
  held_le : ∀ (k : Str) (e : Entry), r.entries[k]? = some e → e.version.lamport ≤ st.1.lamport
  changed_le : ∀ c ∈ st.2, c.new.version.lamport ≤ st.1.lamport

variable {received : List Entry} {r r' : Replica} {labelled : List Labelled} {st st' : Recorded}

theorem Tells.reported (h : Tells received r labelled st) : Reported received r st.2 st.1 where
  replay_eq := h.replay_eq
  old_eq := h.old_eq
  untouched k hk := by
    rw [← h.replay_eq]
    exact getElem?_replay_of_ne hk
  minted := ⟨labelled, h.changes_eq, h.minted_eq, h.labelled⟩

namespace Tells

/-- Nothing is recorded yet. -/
theorem start (received : List Entry)
    (hle : ∀ (k : Str) (e : Entry), r.entries[k]? = some e → e.version.lamport ≤ r.lamport) :
    Tells received r [] (r, []) where
  changes_eq := rfl
  replay_eq := rfl
  old_eq before c after h := by simp at h
  minted_eq := rfl
  labelled before c own after h := by simp at h
  origin_eq := rfl
  held_le := hle
  changed_le := List.forall_mem_nil _

/-- The next split of a list that grows is an old one or the new end. -/
theorem split_concat {α : Type} {l before after : List α} {a b : α}
    (h : l ++ [a] = before ++ b :: after) :
    (∃ after', l = before ++ b :: after') ∨ before = l ∧ b = a := by
  rcases List.eq_nil_or_concat after with rfl | ⟨after, a', rfl⟩
  · obtain ⟨rfl, hb⟩ := List.append_inj' h rfl
    exact .inr ⟨rfl, (List.cons.inj hb).1.symm⟩
  · rw [List.concat_eq_append, ← List.cons_append, ← List.append_assoc] at h
    exact .inl ⟨after, (List.append_inj' h rfl).1⟩

/-- One more change. -/
theorem note (h : Tells received r labelled st) {c : Change} {own : Bool}
    (hold : c.old = st.1.entries[c.path]?) (hentries : r'.entries = st.1.entries.insert c.path c.new)
    (hminted : r'.minted = if own then c.new.version :: st.1.minted else st.1.minted)
    (horigin : r'.origin = st.1.origin) (hle : st.1.lamport ≤ r'.lamport)
    (hnew : c.new.version.lamport ≤ r'.lamport)
    (hown : if own then c.new.version.origin = st.1.origin ∧ st.1.lamport < c.new.version.lamport
      else c.new ∈ received) :
    Tells received r (labelled ++ [(c, own)]) (r', st.2 ++ [c]) where
  changes_eq := by rw [List.map_append, h.changes_eq, List.map_singleton]
  replay_eq := by
    rw [replay_append, h.replay_eq, hentries]
    rfl
  old_eq before c' after heq := by
    rcases split_concat heq with ⟨after', hsplit⟩ | ⟨rfl, rfl⟩
    · exact h.old_eq before c' after' hsplit
    · rw [h.replay_eq]
      exact hold
  minted_eq := by
    rw [hminted, issuedVersions, List.filter_append, List.map_append, List.reverse_append]
    cases own with
    | true => exact congrArg (List.cons c.new.version) h.minted_eq
    | false => exact h.minted_eq
  labelled before c' own' after heq := by
    rcases split_concat heq with ⟨after', hsplit⟩ | ⟨rfl, hpair⟩
    · exact h.labelled before c' own' after' hsplit
    · obtain ⟨rfl, rfl⟩ := Prod.mk.inj hpair
      cases own' with
      | false => exact hown
      | true =>
        obtain ⟨horigin', hlt⟩ := hown
        refine ⟨horigin'.trans h.origin_eq, fun k e he ↦ ?_, fun x hx ↦ ?_⟩
        · exact Version.lt_of_lamport_lt (lt_of_le_of_lt (h.held_le k e he) hlt)
        · have hmem : x.1 ∈ st.2 := h.changes_eq ▸ List.mem_map_of_mem hx
          exact Version.lt_of_lamport_lt (lt_of_le_of_lt (h.changed_le x.1 hmem) hlt)
  origin_eq := horigin.trans h.origin_eq
  held_le k e he := (h.held_le k e he).trans hle
  changed_le c' hc' := by
    rcases List.mem_append.mp hc' with hc' | hc'
    · exact (h.changed_le c' hc').trans hle
    · rw [List.mem_singleton.mp hc']
      exact hnew

open Replica

theorem stamps (h : Tells received r labelled st) (hst : Stamps st st') :
    ∃ labelled', Tells received r labelled' st' := by
  induction hst with
  | refl => exact ⟨labelled, h⟩
  | @tail st₁ _ _ hstep ih =>
    obtain ⟨labelled', ih⟩ := ih
    obtain ⟨path, make, hpath, hversion⟩ := hstep
    refine ⟨_, @note _ _ _ _ _ ih ⟨path, st₁.1.entries[path]?, make ⟨st₁.1.lamport + 1,
      st₁.1.origin⟩⟩ true rfl rfl ?_ rfl (Nat.le_succ _) ?_ ⟨?_, ?_⟩⟩
    · change _ = (make _).version :: _
      rw [hversion]
      rfl
    · rw [hversion]
      exact le_rfl
    · rw [hversion]
    · rw [hversion]
      exact Nat.lt_succ_self _

end Tells

namespace Replica

/-- Stamping does not look at the changes noted before. -/
theorem Stamps.prepend {r r' : Replica} {cs cs' : List Change} (h : Stamps (r, cs) (r', cs'))
    (before : List Change) : Stamps (r, before ++ cs) (r', before ++ cs') := by
  refine h.lift (fun st : Recorded ↦ (st.1, before ++ st.2)) fun st _ hst ↦ ?_
  obtain ⟨path, make, hpath, hversion⟩ := hst
  have hnext := Stamped.stamp (st.1, before ++ st.2) path make hpath hversion
  rw [stamp] at hnext
  dsimp only at hnext
  rwa [List.append_assoc] at hnext

end Replica

/-- Recording a remote entry reports the entry and what it buries. -/
theorem Tells.recordRemote (h : Tells received r labelled st) {remote : Entry}
    (hmem : remote ∈ received) : ∃ labelled', Tells received r labelled'
      ((Replica.recordRemote st.1 remote).1, st.2 ++ (Replica.recordRemote st.1 remote).2) := by
  obtain ⟨cs, hcs, hst⟩ := Replica.stamps_recordRemote st.1 remote
  have hreceived := @Tells.note _ _ (st.1.receive remote) _ _ h
    ⟨remote.path, st.1.entries[remote.path]?, remote⟩ false rfl rfl rfl rfl (Nat.le_max_left _ _)
    (Nat.le_max_right _ _) hmem
  have hstamps := hst.prepend (st.2 ++ [⟨remote.path, st.1.entries[remote.path]?, remote⟩])
  rw [List.append_nil, List.append_assoc, List.singleton_append, ← hcs] at hstamps
  exact hreceived.stamps hstamps

end Lilsync
