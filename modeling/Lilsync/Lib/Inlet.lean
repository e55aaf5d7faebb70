import Lilsync.Lib.Proc

/-!
# Reading from a stream of chunks

A stream arrives in chunks that need not be those it was sent in.  A reader that
wants an exact number of elements keeps what it has received and not used yet,
and receives another chunk whenever it has none left.

What such a reader returns and what it leaves behind depend on the stream alone:
it returns the front of the stream, and leaves the rest of it.
-/

namespace Lilsync.Lib

/-- The receiving end of a stream: what was received and not used yet, and what
receiving will yield, chunks or errors. -/
structure Inlet (ε α : Type) where
  buf : List α
  inbound : List (Except ε (List α))

namespace Inlet

variable {ε α : Type}

/-- What arrives before the first error. -/
def intact : List (Except ε (List α)) → List α
  | [] => []
  | .error _ :: _ => []
  | .ok chunk :: inbound => chunk ++ intact inbound

/-- What is left of the stream. -/
def stream (s : Inlet ε α) : List α := s.buf ++ intact s.inbound

/-- Go on filling a buffer of `n` elements, `filled` being its front.  Once
nothing more arrives, receiving fails with `closed`. -/
def fill (closed : ε) (n : Nat) (filled buf : List α) (inbound : List (Except ε (List α))) :
    Except ε (List α) × Inlet ε α :=
  let take := min (n - filled.length) buf.length
  if n ≤ filled.length + take then (.ok (filled ++ buf.take take), ⟨buf.drop take, inbound⟩)
  else match inbound with
    | [] => (.error closed, ⟨buf.drop take, []⟩)
    | r :: inbound =>
      match r with
      | .error e => (.error e, ⟨buf.drop take, inbound⟩)
      | .ok chunk => fill closed n (filled ++ buf.take take) chunk inbound

/-- Read exactly `n` elements. -/
def readExact (closed : ε) (n : Nat) : Proc ε (Inlet ε α) (List α) :=
  Proc.ofExec fun s ↦ fill closed n [] s.buf s.inbound

/-! ## What is read -/

variable {closed : ε} {n : Nat} {filled buf : List α} {inbound : List (Except ε (List α))}
  {s : Inlet ε α}

theorem intact_map_ok (chunks : List (List α)) :
    intact (chunks.map .ok : List (Except ε (List α))) = chunks.flatten := by
  induction chunks with
  | nil => rfl
  | cons chunk chunks ih => rw [List.map_cons, intact, ih, List.flatten_cons]

/-- The buffer suffices. -/
theorem fill_of_le_buf (hfilled : filled.length ≤ n) (h : n ≤ filled.length + buf.length) :
    fill closed n filled buf inbound =
      (.ok (filled ++ buf.take (n - filled.length)),
        ⟨buf.drop (n - filled.length), inbound⟩) := by
  have htake : min (n - filled.length) buf.length = n - filled.length := by omega
  rw [fill.eq_def]
  simp only [htake]
  rw [if_pos (by omega)]

/-- The buffer does not suffice and is used up. -/
theorem fill_of_lt_buf (h : filled.length + buf.length < n) :
    fill closed n filled buf inbound =
      match inbound with
      | [] => (.error closed, ⟨[], []⟩)
      | .error e :: inbound => (.error e, ⟨[], inbound⟩)
      | .ok chunk :: inbound => fill closed n (filled ++ buf) chunk inbound := by
  have htake : min (n - filled.length) buf.length = buf.length := by omega
  rw [fill.eq_def]
  simp only [htake, List.take_length, List.drop_length, if_neg (not_le.mpr h)]
  rcases inbound with _ | ⟨_ | _, _⟩ <;> rfl

/-- A stream that is long enough is read from the front. -/
theorem fill_of_le (hfilled : filled.length ≤ n)
    (h : n ≤ filled.length + (buf ++ intact inbound).length) :
    ∃ s : Inlet ε α, fill closed n filled buf inbound =
        (.ok (filled ++ (buf ++ intact inbound).take (n - filled.length)), s) ∧
      s.stream = (buf ++ intact inbound).drop (n - filled.length) ∧
      s.inbound <:+ inbound := by
  induction inbound generalizing filled buf with
  | nil =>
    rw [intact, List.append_nil] at h ⊢
    refine ⟨_, fill_of_le_buf hfilled h, ?_, List.suffix_rfl⟩
    rw [stream, intact, List.append_nil]
  | cons r inbound ih =>
    by_cases hbuf : n ≤ filled.length + buf.length
    · -- what is wanted is in the buffer
      have hle : n - filled.length ≤ buf.length := by omega
      refine ⟨⟨buf.drop (n - filled.length), r :: inbound⟩, ?_, ?_, List.suffix_rfl⟩
      · rw [fill_of_le_buf hfilled hbuf, List.take_append_of_le_length hle]
      · rw [List.drop_append_of_le_length hle]
        rfl
    · rw [not_le] at hbuf
      cases r with
      | error e =>
        rw [intact, List.append_nil] at h
        omega
      | ok chunk =>
        rw [intact] at h ⊢
        rw [List.length_append] at h
        obtain ⟨s, hfill, hstream, hsuffix⟩ := @ih (filled ++ buf) chunk
          (by rw [List.length_append]; omega) (by rw [List.length_append]; omega)
        rw [List.length_append] at hfill hstream
        have hsplit : n - filled.length = buf.length + (n - (filled.length + buf.length)) := by
          omega
        refine ⟨s, ?_, ?_, hsuffix.trans (List.suffix_cons _ _)⟩
        · rw [fill_of_lt_buf hbuf, hsplit, List.take_length_add_append, ← List.append_assoc]
          exact hfill
        · rw [hsplit, List.drop_length_add_append]
          exact hstream

/-- A stream that is too short yields an error. -/
theorem fill_of_lt (h : filled.length + (buf ++ intact inbound).length < n) :
    ∃ (e : ε) (s : Inlet ε α), fill closed n filled buf inbound = (.error e, s) := by
  induction inbound generalizing filled buf with
  | nil =>
    rw [intact, List.append_nil] at h
    exact ⟨_, _, fill_of_lt_buf h⟩
  | cons r inbound ih =>
    rw [List.length_append] at h
    rw [fill_of_lt_buf (by omega)]
    cases r with
    | error e => exact ⟨_, _, rfl⟩
    | ok chunk =>
      rw [intact] at h
      exact ih (by rw [List.length_append]; omega)

/-- What an exact read does on a stream that is long enough. -/
theorem exec_readExact_of_le (h : n ≤ s.stream.length) :
    ∃ s' : Inlet ε α, Proc.exec (readExact closed n) s = (.ok (s.stream.take n), s') ∧
      s'.stream = s.stream.drop n ∧ s'.inbound <:+ s.inbound := by
  obtain ⟨s', hfill, hstream, hsuffix⟩ := @fill_of_le ε α closed n [] s.buf s.inbound
    (Nat.zero_le n) (by rw [List.length_nil, Nat.zero_add]; exact h)
  exact ⟨s', hfill, hstream, hsuffix⟩

/-- An exact read of more than the stream holds fails. -/
theorem exec_readExact_of_lt (h : s.stream.length < n) :
    ∃ (e : ε) (s' : Inlet ε α), Proc.exec (readExact closed n) s = (.error e, s') :=
  fill_of_lt (by rw [List.length_nil, Nat.zero_add]; exact h)

/-- An exact read that succeeds returns the front of the stream. -/
theorem of_exec_readExact {bytes : List α} {s' : Inlet ε α}
    (h : Proc.exec (readExact closed n) s = (.ok bytes, s')) :
    bytes.length = n ∧ s.stream = bytes ++ s'.stream ∧ s'.inbound <:+ s.inbound := by
  rcases Nat.lt_or_ge s.stream.length n with hlt | hle
  · obtain ⟨e, s'', herr⟩ := @exec_readExact_of_lt ε α closed n s hlt
    rw [herr] at h
    cases h
  · obtain ⟨s'', hok, hstream, hsuffix⟩ := @exec_readExact_of_le ε α closed n s hle
    rw [hok] at h
    cases h
    exact ⟨List.length_take_of_le hle, by rw [hstream, List.take_append_drop], hsuffix⟩

end Inlet

end Lilsync.Lib
