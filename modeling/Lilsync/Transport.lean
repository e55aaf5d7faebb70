import Lilsync.Lib.Inlet
import Lilsync.Tree

/-!
# Connections

`transport.rs`, above the Noise layer: each end of a connection sends plaintext
chunks and receives those the other end has sent.  A blob is its length and then
its content, cut into chunks; the receiving end reads exact numbers of bytes and
keeps what is left of the last chunk.

What a connection receives is a list of chunks, in which an error stands for a
frame that could not be read or decrypted.  The list ends where the peer closes
the connection.
-/

namespace Lilsync

open Lilsync.Lib

def maxBlobBytes : Nat := 16 * 1024 * 1024

def maxPlaintextChunk : Nat := 16 * 1024

/-- `NoiseConnection`. -/
structure NoiseConnection where
  readBuf : List UInt8
  /-- What `recv_plain_chunk` is going to yield. -/
  inbound : List (IoResult (List UInt8))
  /-- The chunks that were sent. -/
  outbound : List (List UInt8)
  /-- Whether the `n`-th chunk to be sent can be written to the stream. -/
  writeError : Nat → Option IoError

namespace NoiseConnection

/-- The receiving end. -/
def inlet (conn : NoiseConnection) : Inlet IoError UInt8 := ⟨conn.readBuf, conn.inbound⟩

def withInlet (conn : NoiseConnection) (s : Inlet IoError UInt8) : NoiseConnection :=
  { conn with readBuf := s.buf, inbound := s.inbound }

/-- What is left to read, in `read_buf` and in chunks not received yet. -/
def unread (conn : NoiseConnection) : List UInt8 := conn.inlet.stream

end NoiseConnection

/-- Programs on a connection. -/
abbrev Conn := Proc IoError NoiseConnection

/-- `send_plain_chunk`. -/
def sendPlainChunk (chunk : List UInt8) : Conn Unit := do
  if chunk.length > maxPlaintextChunk then
    throw (.invalidInput (.plaintextChunkTooLarge chunk.length))
  let conn ← get
  match conn.writeError conn.outbound.length with
  | some err => throw err
  | none => set { conn with outbound := conn.outbound ++ [chunk] }

/-- `recv_plain_exact`. -/
def recvPlainExact (len : Nat) : Conn (List UInt8) :=
  Proc.zoom NoiseConnection.inlet NoiseConnection.withInlet
    (Inlet.readExact (.ofKind .unexpectedEof) len)

/-- `bytes.chunks(n)`: the number of steps bounds the number of chunks. -/
def chunksFrom (n : Nat) : Nat → List UInt8 → List (List UInt8)
  | 0, _ => []
  | _ + 1, [] => []
  | steps + 1, bytes => bytes.take n :: chunksFrom n steps (bytes.drop n)

/-- `bytes.chunks(n)`. -/
def chunks (n : Nat) (bytes : List UInt8) : List (List UInt8) := chunksFrom n bytes.length bytes

/-- `send_blob`. -/
def sendBlob (bytes : List UInt8) : Conn Unit := do
  if bytes.length > maxBlobBytes then throw (.invalidInput (.blobTooLarge bytes.length))
  sendPlainChunk (toBeBytes 8 bytes.length)
  (chunks maxPlaintextChunk bytes).forM sendPlainChunk

/-- `u64::from_be_bytes`. -/
def ofBeBytes (bytes : List UInt8) : Nat := bytes.foldl (fun n b ↦ n * 256 + b.toNat) 0

/-- `recv_blob`. -/
def recvBlob (maxLen : Nat) : Conn (List UInt8) := do
  let lenBuf ← recvPlainExact 8
  let len := ofBeBytes lenBuf
  if len > maxLen then throw ⟨.invalidData, .blobLengthExceeds len maxLen⟩
  recvPlainExact len

/-- Several `recv_blob` in a row. -/
def recvBlobs (maxLen : Nat) : Nat → Conn (List (List UInt8))
  | 0 => pure []
  | n + 1 => do
    let blob ← recvBlob maxLen
    let blobs ← recvBlobs maxLen n
    pure (blob :: blobs)

/-- `send_json`, for what serde writes a value as. -/
def sendJson (bytes : IoResult (List UInt8)) : Conn Unit :=
  match bytes with
  | .ok bytes => sendBlob bytes
  | .error err => throw err

/-- `recv_json`, with what serde reads a value from. -/
def recvJson {α : Type} (fromSlice : List UInt8 → IoResult α) : Conn α := do
  let bytes ← recvBlob maxBlobBytes
  match fromSlice bytes with
  | .ok value => pure value
  | .error err => throw err

/-! ## Numbers and chunks -/

theorem foldl_ofBeBytes (n : Nat) (bytes : List UInt8) :
    bytes.foldl (fun n b ↦ n * 256 + b.toNat) n = n * 256 ^ bytes.length + ofBeBytes bytes := by
  induction bytes generalizing n with
  | nil => simp [ofBeBytes]
  | cons b bytes ih =>
    rw [ofBeBytes, List.foldl_cons, List.foldl_cons, ih, ih, List.length_cons, pow_succ]
    ring

theorem ofBeBytes_cons (b : UInt8) (bytes : List UInt8) :
    ofBeBytes (b :: bytes) = b.toNat * 256 ^ bytes.length + ofBeBytes bytes := by
  rw [ofBeBytes, List.foldl_cons, Nat.zero_mul, Nat.zero_add, foldl_ofBeBytes]

theorem length_toBeBytes (width n : Nat) : (toBeBytes width n).length = width := by
  rw [toBeBytes, List.length_map, List.length_reverse, List.length_range]

theorem toBeBytes_succ (width n : Nat) :
    toBeBytes (width + 1) n = (n >>> (8 * width)).toUInt8 :: toBeBytes width n := by
  rw [toBeBytes, List.range_succ, List.reverse_append, List.map_append]
  rfl

/-- A number is read back from its bytes, as far as they hold it. -/
theorem ofBeBytes_toBeBytes (width n : Nat) : ofBeBytes (toBeBytes width n) = n % 256 ^ width := by
  induction width with
  | zero => rw [Nat.pow_zero, Nat.mod_one]; rfl
  | succ width ih =>
    have hbyte : ((n >>> (8 * width)).toUInt8).toNat = n / 256 ^ width % 256 := by
      rw [Nat.toUInt8, UInt8.toNat_ofNat', Nat.shiftRight_eq_div_pow, pow_mul]
      rfl
    rw [toBeBytes_succ, ofBeBytes_cons, hbyte, length_toBeBytes, ih, pow_succ,
      Nat.mod_mul, Nat.mul_comm, Nat.add_comm]

theorem ofBeBytes_lt (bytes : List UInt8) : ofBeBytes bytes < 256 ^ bytes.length := by
  induction bytes with
  | nil => exact Nat.one_pos
  | cons b bytes ih =>
    have hb := b.toNat_lt
    rw [ofBeBytes_cons, List.length_cons, pow_succ]
    nlinarith

/-- Bytes are read back from the number they are read as. -/
theorem toBeBytes_ofBeBytes (bytes : List UInt8) :
    toBeBytes bytes.length (ofBeBytes bytes) = bytes := by
  have hinj : ∀ {l l' : List UInt8}, l.length = l'.length → ofBeBytes l = ofBeBytes l' → l = l' := by
    intro l
    induction l with
    | nil => exact fun hlen _ ↦ (List.eq_nil_of_length_eq_zero hlen.symm).symm
    | cons b l ih =>
      intro l' hlen h
      cases l' with
      | nil => cases hlen
      | cons b' l' =>
        have hlen' : l.length = l'.length := Nat.succ.inj hlen
        have hlt := ofBeBytes_lt l
        have hlt' := ofBeBytes_lt l'
        rw [ofBeBytes_cons, ofBeBytes_cons, hlen'] at h
        rw [hlen'] at hlt
        -- both numbers have the same quotient and remainder
        have hpos : 0 < 256 ^ l'.length := by positivity
        have hquot := congrArg (· / 256 ^ l'.length) h
        have hrem := congrArg (· % 256 ^ l'.length) h
        simp only [Nat.mul_add_mod', Nat.mod_eq_of_lt hlt, Nat.mod_eq_of_lt hlt'] at hrem
        simp only [Nat.mul_comm _ (256 ^ l'.length), Nat.mul_add_div hpos, Nat.div_eq_of_lt hlt,
          Nat.div_eq_of_lt hlt', Nat.add_zero] at hquot
        rw [UInt8.toNat_inj.mp hquot, ih hlen' hrem]
  refine hinj (length_toBeBytes _ _) ?_
  rw [ofBeBytes_toBeBytes, Nat.mod_eq_of_lt (ofBeBytes_lt bytes)]

theorem flatten_chunksFrom {n : Nat} (hn : 0 < n) (steps : Nat) (bytes : List UInt8)
    (h : bytes.length ≤ steps) : (chunksFrom n steps bytes).flatten = bytes := by
  induction steps generalizing bytes with
  | zero => rw [List.eq_nil_of_length_eq_zero (Nat.le_zero.mp h)]; rfl
  | succ steps ih =>
    cases bytes with
    | nil => rfl
    | cons b bytes =>
      rw [chunksFrom, List.flatten_cons, ih _ (by rw [List.length_drop]; omega),
        List.take_append_drop]
      exact List.cons_ne_nil b bytes

theorem flatten_chunks {n : Nat} (hn : 0 < n) (bytes : List UInt8) :
    (chunks n bytes).flatten = bytes :=
  flatten_chunksFrom hn _ bytes le_rfl

theorem length_le_of_mem_chunksFrom {n steps : Nat} {bytes chunk : List UInt8}
    (h : chunk ∈ chunksFrom n steps bytes) : chunk.length ≤ n := by
  induction steps generalizing bytes with
  | zero => cases h
  | succ steps ih =>
    cases bytes with
    | nil => cases h
    | cons b bytes =>
      rw [chunksFrom] at h
      · rcases List.mem_cons.mp h with rfl | h
        · exact List.length_take_le n _
        · exact ih h
      · exact List.cons_ne_nil b bytes

theorem length_le_of_mem_chunks {n : Nat} {bytes chunk : List UInt8} (h : chunk ∈ chunks n bytes) :
    chunk.length ≤ n :=
  length_le_of_mem_chunksFrom h

theorem nil_notMem_chunksFrom {n : Nat} (hn : 0 < n) (steps : Nat) (bytes : List UInt8) :
    [] ∉ chunksFrom n steps bytes := by
  induction steps generalizing bytes with
  | zero => exact List.not_mem_nil
  | succ steps ih =>
    cases bytes with
    | nil => exact List.not_mem_nil
    | cons b bytes =>
      rw [chunksFrom]
      · refine List.not_mem_cons_of_ne_of_not_mem (fun h ↦ ?_) (ih _)
        rcases List.take_eq_nil_iff.mp h.symm with h | h
        · exact hn.ne' h
        · cases h
      · exact List.cons_ne_nil b bytes

/-! ## Sending -/

section Send

variable {conn conn' : NoiseConnection} {chunk blob : List UInt8}

namespace NoiseConnection

/-- Chunks added to those that were sent. -/
def sent (conn : NoiseConnection) (chunks : List (List UInt8)) : NoiseConnection :=
  { conn with outbound := conn.outbound ++ chunks }

/-- The stream takes every write. -/
def Writable (conn : NoiseConnection) : Prop := ∀ n, conn.writeError n = none

theorem sent_nil (conn : NoiseConnection) : conn.sent [] = conn := by
  rw [sent, List.append_nil]

theorem sent_sent (conn : NoiseConnection) (cs cs' : List (List UInt8)) :
    (conn.sent cs).sent cs' = conn.sent (cs ++ cs') := by
  rw [sent, sent, sent, List.append_assoc]

theorem Writable.sent (hw : conn.Writable) (cs : List (List UInt8)) : (conn.sent cs).Writable := hw

end NoiseConnection

theorem exec_sendPlainChunk (hlen : chunk.length ≤ maxPlaintextChunk) (hw : conn.Writable) :
    Proc.exec (sendPlainChunk chunk) conn = (.ok (), conn.sent [chunk]) := by
  rw [sendPlainChunk, if_neg (not_lt.mpr hlen)]
  simp only [Proc.exec_get_bind, hw conn.outbound.length]
  rfl

theorem exec_forM_sendPlainChunk {cs : List (List UInt8)}
    (hlen : ∀ chunk ∈ cs, chunk.length ≤ maxPlaintextChunk) (hw : conn.Writable) :
    Proc.exec (cs.forM sendPlainChunk) conn = (.ok (), conn.sent cs) := by
  induction cs generalizing conn with
  | nil => rw [NoiseConnection.sent_nil]; rfl
  | cons chunk cs ih =>
    rw [List.forall_mem_cons] at hlen
    rw [List.forM_eq_forM, List.forM_cons, Proc.exec_bind_ok (exec_sendPlainChunk hlen.1 hw),
      ← List.forM_eq_forM, ih hlen.2 (hw.sent _), NoiseConnection.sent_sent]
    rfl

/-- A blob in the stream: its length and its content. -/
def frame (blob : List UInt8) : List UInt8 := toBeBytes 8 blob.length ++ blob

/-- The chunks a blob is sent in. -/
def blobChunks (blob : List UInt8) : List (List UInt8) :=
  toBeBytes 8 blob.length :: chunks maxPlaintextChunk blob

theorem flatten_blobChunks (blob : List UInt8) : (blobChunks blob).flatten = frame blob := by
  rw [blobChunks, List.flatten_cons, flatten_chunks (by decide), frame]

theorem nil_notMem_blobChunks (blob : List UInt8) : [] ∉ blobChunks blob := by
  refine List.not_mem_cons_of_ne_of_not_mem (fun h ↦ ?_) (nil_notMem_chunksFrom (by decide) _ _)
  cases h.trans (toBeBytes_succ 7 blob.length)

/-- A front of a stream that is a blob and more, and that itself is a blob and more,
has the same blob. -/
theorem eq_of_frame_append {blob' : List UInt8} (hlen : blob.length < 2 ^ 64)
    (hlen' : blob'.length < 2 ^ 64) {rest : List UInt8} (h : frame blob <+: frame blob' ++ rest) :
    blob = blob' := by
  obtain ⟨rest', h⟩ := h
  rw [frame, frame, List.append_assoc, List.append_assoc] at h
  obtain ⟨hwidth, hrest⟩ := List.append_inj h (by rw [length_toBeBytes, length_toBeBytes])
  have hnum := congrArg ofBeBytes hwidth
  rw [ofBeBytes_toBeBytes, ofBeBytes_toBeBytes, show 256 ^ 8 = 2 ^ 64 by norm_num,
    Nat.mod_eq_of_lt hlen, Nat.mod_eq_of_lt hlen'] at hnum
  exact (List.append_inj hrest hnum).1

theorem exec_sendBlob (hlen : blob.length ≤ maxBlobBytes) (hw : conn.Writable) :
    Proc.exec (sendBlob blob) conn = (.ok (), conn.sent (blobChunks blob)) := by
  have hlength : (toBeBytes 8 blob.length).length ≤ maxPlaintextChunk := by
    rw [length_toBeBytes]
    decide
  rw [sendBlob, if_neg (not_lt.mpr hlen)]
  dsimp only
  rw [Proc.exec_bind_ok (exec_sendPlainChunk hlength hw),
    exec_forM_sendPlainChunk (fun _ h ↦ length_le_of_mem_chunks h) (hw.sent _),
    NoiseConnection.sent_sent]
  rfl

theorem exec_forM_sendBlob {blobs : List (List UInt8)}
    (hlen : ∀ blob ∈ blobs, blob.length ≤ maxBlobBytes) (hw : conn.Writable) :
    Proc.exec (blobs.forM sendBlob) conn = (.ok (), conn.sent (blobs.flatMap blobChunks)) := by
  induction blobs generalizing conn with
  | nil => rw [List.flatMap_nil, NoiseConnection.sent_nil]; rfl
  | cons blob blobs ih =>
    rw [List.forall_mem_cons] at hlen
    rw [List.forM_eq_forM, List.forM_cons, Proc.exec_bind_ok (exec_sendBlob hlen.1 hw),
      ← List.forM_eq_forM, ih hlen.2 (hw.sent _), NoiseConnection.sent_sent, List.flatMap_cons]

/-- A chunk that was sent has been added. -/
theorem of_exec_sendPlainChunk (h : Proc.exec (sendPlainChunk chunk) conn = (.ok (), conn')) :
    conn' = conn.sent [chunk] := by
  rw [sendPlainChunk] at h
  split at h
  · cases h
  · dsimp only at h
    rw [Proc.exec_get_bind] at h
    split at h
    · cases h
    · exact (Prod.mk.inj h).2.symm

theorem of_exec_forM_sendPlainChunk {cs : List (List UInt8)}
    (h : Proc.exec (cs.forM sendPlainChunk) conn = (.ok (), conn')) : conn' = conn.sent cs := by
  induction cs generalizing conn with
  | nil =>
    rw [NoiseConnection.sent_nil]
    exact (Prod.mk.inj h).2.symm
  | cons chunk cs ih =>
    rw [List.forM_eq_forM, List.forM_cons] at h
    obtain ⟨_, conn₁, h₁, h⟩ := Proc.of_exec_bind h
    rw [ih h, of_exec_sendPlainChunk h₁, NoiseConnection.sent_sent]
    rfl

theorem of_exec_sendBlob (h : Proc.exec (sendBlob blob) conn = (.ok (), conn')) :
    blob.length ≤ maxBlobBytes ∧ conn' = conn.sent (blobChunks blob) := by
  rw [sendBlob] at h
  split at h
  · cases h
  · next hlen =>
    obtain ⟨_, conn₁, h₁, h⟩ := Proc.of_exec_bind h
    rw [of_exec_forM_sendPlainChunk h, of_exec_sendPlainChunk h₁, NoiseConnection.sent_sent]
    exact ⟨not_lt.mp hlen, rfl⟩

theorem of_exec_forM_sendBlob {blobs : List (List UInt8)}
    (h : Proc.exec (blobs.forM sendBlob) conn = (.ok (), conn')) :
    (∀ blob ∈ blobs, blob.length ≤ maxBlobBytes) ∧
      conn' = conn.sent (blobs.flatMap blobChunks) := by
  induction blobs generalizing conn with
  | nil =>
    rw [List.flatMap_nil, NoiseConnection.sent_nil]
    exact ⟨List.forall_mem_nil _, (Prod.mk.inj h).2.symm⟩
  | cons blob blobs ih =>
    rw [List.forM_eq_forM, List.forM_cons] at h
    obtain ⟨_, conn₁, h₁, h⟩ := Proc.of_exec_bind h
    obtain ⟨hlen, rfl⟩ := of_exec_sendBlob h₁
    obtain ⟨hlens, rfl⟩ := ih h
    exact ⟨List.forall_mem_cons.mpr ⟨hlen, hlens⟩, by
      rw [NoiseConnection.sent_sent, List.flatMap_cons]⟩

/-- A chunk is sent or not. -/
theorem exec_sendPlainChunk_cases (chunk : List UInt8) (conn : NoiseConnection) :
    Proc.exec (sendPlainChunk chunk) conn = (.ok (), conn.sent [chunk]) ∨
      ∃ err, Proc.exec (sendPlainChunk chunk) conn = (.error err, conn) := by
  rw [sendPlainChunk]
  split
  · exact .inr ⟨_, rfl⟩
  · dsimp only
    rw [Proc.exec_get_bind]
    split
    · exact .inr ⟨_, rfl⟩
    · exact .inl rfl

/-- Chunks are sent up to the first that cannot be. -/
theorem exec_forM_sendPlainChunk_cases (cs : List (List UInt8)) (conn : NoiseConnection) :
    Proc.exec (cs.forM sendPlainChunk) conn = (.ok (), conn.sent cs) ∨
      ∃ k err, k < cs.length ∧
        Proc.exec (cs.forM sendPlainChunk) conn = (.error err, conn.sent (cs.take k)) := by
  induction cs generalizing conn with
  | nil => exact .inl (by rw [NoiseConnection.sent_nil]; rfl)
  | cons chunk cs ih =>
    rw [List.forM_eq_forM, List.forM_cons, ← List.forM_eq_forM]
    rcases exec_sendPlainChunk_cases chunk conn with h | ⟨err, h⟩
    · rw [Proc.exec_bind_ok h]
      rcases ih (conn.sent [chunk]) with h | ⟨k, err, hk, h⟩
      · rw [h, NoiseConnection.sent_sent]
        exact .inl rfl
      · rw [h, NoiseConnection.sent_sent]
        exact .inr ⟨k + 1, err, Nat.succ_lt_succ hk, rfl⟩
    · rw [Proc.exec_bind_error h]
      refine .inr ⟨0, err, Nat.succ_pos _, ?_⟩
      rw [List.take_zero, NoiseConnection.sent_nil]

/-- No blob is there in full. -/
def Torn (cs : List (List UInt8)) : Prop :=
  ∀ blob : List UInt8, blob.length < 2 ^ 64 → ¬ frame blob <+: cs.flatten

theorem torn_nil : Torn [] := by
  intro blob _ h
  have hlen := h.length_le
  rw [frame, List.length_append, length_toBeBytes, List.flatten_nil, List.length_nil] at hlen
  omega

/-- A blob that lacks its last chunks. -/
theorem torn_take {k : Nat} (hk : k < (blobChunks blob).length) (hlen : blob.length < 2 ^ 64) :
    Torn ((blobChunks blob).take k) := by
  intro blob' hlen' h
  have hsplit : ((blobChunks blob).take k).flatten ++ ((blobChunks blob).drop k).flatten =
      frame blob := by
    rw [← List.flatten_append, List.take_append_drop, flatten_blobChunks]
  have hfront := h.trans ⟨_, hsplit⟩
  rw [← List.append_nil (frame blob)] at hfront
  obtain rfl := eq_of_frame_append hlen' hlen hfront
  -- then nothing is missing, but the chunk that was not sent is not empty
  have hle := h.length_le
  rw [← hsplit, List.length_append, List.drop_eq_getElem_cons hk, List.flatten_cons,
    List.length_append] at hle
  have hnil : (blobChunks blob')[k] = [] := List.eq_nil_of_length_eq_zero (by omega)
  exact nil_notMem_blobChunks blob' (hnil ▸ List.getElem_mem hk)

/-- A blob is sent in full, or what is sent is torn. -/
theorem exec_sendBlob_cases (blob : List UInt8) (conn : NoiseConnection) :
    blob.length ≤ maxBlobBytes ∧
        Proc.exec (sendBlob blob) conn = (.ok (), conn.sent (blobChunks blob)) ∨
      ∃ err cs, [] ∉ cs ∧ Torn cs ∧ Proc.exec (sendBlob blob) conn = (.error err, conn.sent cs) := by
  rw [sendBlob]
  split
  · exact .inr ⟨_, [], List.not_mem_nil, torn_nil, by rw [NoiseConnection.sent_nil]; rfl⟩
  · next hlen =>
    rw [not_lt] at hlen
    have h := exec_forM_sendPlainChunk_cases (blobChunks blob) conn
    rw [blobChunks, List.forM_eq_forM, List.forM_cons, ← List.forM_eq_forM, ← blobChunks] at h
    refine h.imp (fun h ↦ ⟨hlen, h⟩) ?_
    rintro ⟨k, err, hk, h⟩
    refine ⟨err, _, fun hnil ↦ nil_notMem_blobChunks blob (List.mem_of_mem_take hnil), ?_, h⟩
    exact torn_take hk (hlen.trans_lt (by decide))

/-- A value is sent in full, or what is sent is torn. -/
theorem exec_sendJson_cases (bytes : IoResult (List UInt8)) (conn : NoiseConnection) :
    (∃ blob, bytes = .ok blob ∧ blob.length ≤ maxBlobBytes ∧
        Proc.exec (sendJson bytes) conn = (.ok (), conn.sent (blobChunks blob))) ∨
      ∃ err cs, [] ∉ cs ∧ Torn cs ∧ Proc.exec (sendJson bytes) conn = (.error err, conn.sent cs) := by
  cases bytes with
  | ok blob =>
    exact (exec_sendBlob_cases blob conn).imp (fun h ↦ ⟨blob, rfl, h⟩) fun h ↦ h
  | error err =>
    exact .inr ⟨err, [], List.not_mem_nil, torn_nil, by rw [NoiseConnection.sent_nil]; rfl⟩

theorem of_exec_sendJson {bytes : IoResult (List UInt8)}
    (h : Proc.exec (sendJson bytes) conn = (.ok (), conn')) :
    ∃ blob, conn' = conn.sent (blobChunks blob) := by
  rcases exec_sendJson_cases bytes conn with ⟨blob, -, -, hok⟩ | ⟨err, cs, -, -, herr⟩
  · rw [hok] at h
    cases h
    exact ⟨blob, rfl⟩
  · rw [herr] at h
    cases h

theorem flatten_flatMap_blobChunks (blobs : List (List UInt8)) :
    (blobs.flatMap blobChunks).flatten = blobs.flatMap frame := by
  induction blobs with
  | nil => rfl
  | cons blob blobs ih =>
    rw [List.flatMap_cons, List.flatten_append, flatten_blobChunks, ih, List.flatMap_cons]

end Send

/-! ## Receiving -/

section Receive

variable {conn conn' : NoiseConnection} {len maxLen : Nat} {blob rest : List UInt8}

/-- What receiving leaves of a connection: nothing is sent, and of what is to be
received only the front is gone. -/
structure NoiseConnection.Advances (conn conn' : NoiseConnection) : Prop where
  outbound_eq : conn'.outbound = conn.outbound
  writeError_eq : conn'.writeError = conn.writeError
  inbound_suffix : conn'.inbound <:+ conn.inbound

namespace NoiseConnection

theorem Advances.refl (conn : NoiseConnection) : Advances conn conn := ⟨rfl, rfl, List.suffix_rfl⟩

theorem Advances.trans {conn'' : NoiseConnection} (h : Advances conn conn')
    (h' : Advances conn' conn'') : Advances conn conn'' :=
  ⟨h'.outbound_eq.trans h.outbound_eq, h'.writeError_eq.trans h.writeError_eq,
    h'.inbound_suffix.trans h.inbound_suffix⟩

end NoiseConnection

/-- An exact read returns the front of what is unread. -/
theorem exec_recvPlainExact (h : len ≤ conn.unread.length) :
    ∃ conn', Proc.exec (recvPlainExact len) conn = (.ok (conn.unread.take len), conn') ∧
      conn'.unread = conn.unread.drop len ∧ conn.Advances conn' := by
  obtain ⟨s, hexec, hstream, hsuffix⟩ :=
    @Inlet.exec_readExact_of_le _ _ (.ofKind .unexpectedEof) len conn.inlet h
  refine ⟨conn.withInlet s, ?_, hstream, rfl, rfl, hsuffix⟩
  rw [recvPlainExact, Proc.exec_zoom, hexec]
  rfl

/-- An exact read that succeeds has returned the front of what was unread. -/
theorem of_exec_recvPlainExact {bytes : List UInt8}
    (h : Proc.exec (recvPlainExact len) conn = (.ok bytes, conn')) :
    bytes.length = len ∧ conn.unread = bytes ++ conn'.unread ∧ conn.Advances conn' := by
  rw [recvPlainExact, Proc.exec_zoom] at h
  obtain ⟨hres, rfl⟩ := Prod.mk.inj h
  obtain ⟨hlen, hstream, hsuffix⟩ := Inlet.of_exec_readExact
    (Prod.ext (y := (Except.ok bytes, _)) hres rfl)
  exact ⟨hlen, hstream, rfl, rfl, hsuffix⟩

/-- A blob at the front of what is unread is received. -/
theorem exec_recvBlob (hmax : blob.length ≤ maxLen) (hlen : blob.length < 2 ^ 64)
    (h : conn.unread = frame blob ++ rest) :
    ∃ conn', Proc.exec (recvBlob maxLen) conn = (.ok blob, conn') ∧ conn'.unread = rest ∧
      conn.Advances conn' := by
  rw [frame, List.append_assoc] at h
  have hwidth := length_toBeBytes 8 blob.length
  obtain ⟨conn₁, hexec₁, hunread₁, hadv₁⟩ := @exec_recvPlainExact conn 8
    (by rw [h, List.length_append, hwidth]; omega)
  rw [h, List.take_left' hwidth] at hexec₁
  rw [h, List.drop_left' hwidth] at hunread₁
  obtain ⟨conn₂, hexec₂, hunread₂, hadv₂⟩ := @exec_recvPlainExact conn₁ blob.length
    (by rw [hunread₁, List.length_append]; omega)
  rw [hunread₁, List.take_left' rfl] at hexec₂
  rw [hunread₁, List.drop_left' rfl] at hunread₂
  have hread : ofBeBytes (toBeBytes 8 blob.length) = blob.length :=
    (ofBeBytes_toBeBytes 8 _).trans (Nat.mod_eq_of_lt hlen)
  refine ⟨conn₂, ?_, hunread₂, hadv₁.trans hadv₂⟩
  rw [recvBlob, Proc.exec_bind_ok hexec₁]
  dsimp only
  rw [hread, if_neg (not_lt.mpr hmax)]
  exact hexec₂

/-- A blob that was received was at the front of what was unread. -/
theorem of_exec_recvBlob (h : Proc.exec (recvBlob maxLen) conn = (.ok blob, conn')) :
    blob.length < 2 ^ 64 ∧ conn.unread = frame blob ++ conn'.unread ∧ conn.Advances conn' := by
  rw [recvBlob] at h
  obtain ⟨lenBuf, conn₁, h₁, h⟩ := Proc.of_exec_bind h
  dsimp only at h
  split at h
  · cases h
  · obtain ⟨hwidth, hunread₁, hadv₁⟩ := of_exec_recvPlainExact h₁
    obtain ⟨hlen, hunread₂, hadv₂⟩ := of_exec_recvPlainExact h
    have hback := toBeBytes_ofBeBytes lenBuf
    have hlt := ofBeBytes_lt lenBuf
    rw [hwidth] at hback hlt
    refine ⟨hlen ▸ hlt, ?_, hadv₁.trans hadv₂⟩
    rw [frame, hlen, hback, List.append_assoc, ← hunread₂, hunread₁]

/-- A value that was received was read from a blob. -/
theorem of_exec_recvJson {α : Type} {fromSlice : List UInt8 → IoResult α} {value : α}
    (h : Proc.exec (recvJson fromSlice) conn = (.ok value, conn')) :
    ∃ blob, fromSlice blob = .ok value ∧ blob.length < 2 ^ 64 ∧
      conn.unread = frame blob ++ conn'.unread ∧ conn.Advances conn' := by
  rw [recvJson] at h
  obtain ⟨blob, conn₁, hblob, h⟩ := Proc.of_exec_bind h
  cases hread : fromSlice blob with
  | error err =>
    rw [hread] at h
    cases h
  | ok value' =>
    rw [hread] at h
    cases h
    exact ⟨blob, hread, of_exec_recvBlob hblob⟩

/-- Blobs at the front of what is unread are received one after the other. -/
theorem exec_recvBlobs {blobs : List (List UInt8)}
    (hmax : ∀ blob ∈ blobs, blob.length ≤ maxLen) (hlen : maxLen < 2 ^ 64)
    (h : conn.unread = blobs.flatMap frame ++ rest) :
    ∃ conn', Proc.exec (recvBlobs maxLen blobs.length) conn = (.ok blobs, conn') ∧
      conn'.unread = rest ∧ conn.Advances conn' := by
  induction blobs generalizing conn with
  | nil => exact ⟨conn, rfl, h, .refl conn⟩
  | cons blob blobs ih =>
    rw [List.forall_mem_cons] at hmax
    rw [List.flatMap_cons, List.append_assoc] at h
    obtain ⟨conn₁, hexec₁, hunread₁, hadv₁⟩ := exec_recvBlob hmax.1 (hmax.1.trans_lt hlen) h
    obtain ⟨conn₂, hexec₂, hunread₂, hadv₂⟩ := ih hmax.2 hunread₁
    refine ⟨conn₂, ?_, hunread₂, hadv₁.trans hadv₂⟩
    rw [List.length_cons, recvBlobs, Proc.exec_bind_ok hexec₁, Proc.exec_bind_ok hexec₂]
    rfl

namespace NoiseConnection

/-- Nothing is unread, neither in `read_buf` nor in flight. -/
def AtBoundary (conn : NoiseConnection) : Prop := conn.readBuf = [] ∧ conn.inbound = []

/-- The blob that arrives next is the one that is received next. -/
def ReadsNext (conn : NoiseConnection) : Prop :=
  ∀ (blob : List UInt8) (pieces : List (List UInt8)) (rest : List UInt8),
    blob.length ≤ maxBlobBytes → pieces.flatten = frame blob ++ rest →
      ∃ conn', Proc.exec (recvBlob maxBlobBytes)
          { conn with inbound := conn.inbound ++ pieces.map .ok } = (.ok blob, conn') ∧
        conn'.unread = rest

theorem AtBoundary.readsNext (h : conn.AtBoundary) : conn.ReadsNext := by
  intro blob pieces rest hlen hpieces
  obtain ⟨conn', hexec, hunread, -⟩ := @exec_recvBlob
    { conn with inbound := conn.inbound ++ pieces.map .ok } maxBlobBytes blob rest hlen
    (hlen.trans_lt (by decide))
    (by rw [unread, inlet, Inlet.stream, h.1, h.2, List.nil_append, List.nil_append,
      Inlet.intact_map_ok, hpieces])
  exact ⟨conn', hexec, hunread⟩

/-- Chunks that were sent are not empty, so what is left of them shows as bytes. -/
theorem atBoundary_of_unread_eq_nil {cs : List (List UInt8)} (hnil : [] ∉ cs)
    (hin : conn.inbound <:+ cs.map .ok) (h : conn.unread = []) : conn.AtBoundary := by
  obtain ⟨left, hleft, heq⟩ := List.suffix_map_iff.mp hin
  rw [unread, inlet, Inlet.stream, heq, Inlet.intact_map_ok, List.append_eq_nil_iff] at h
  refine ⟨h.1, ?_⟩
  cases left with
  | nil => exact heq
  | cons chunk left =>
    rw [List.flatten_cons, List.append_eq_nil_iff] at h
    exact absurd (h.2.1 ▸ hleft.subset List.mem_cons_self) hnil

theorem AtBoundary.unread_eq_nil (h : conn.AtBoundary) : conn.unread = [] := by
  rw [unread, inlet, Inlet.stream, h.1, h.2]
  rfl

end NoiseConnection

/-- Blobs that were sent are received in order, however their stream is cut into
chunks on the way, and what the receiver then holds is the rest of the stream. -/
theorem exec_recvBlobs_of_sendBlob {blobs pieces : List (List UInt8)}
    {sender sender' receiver : NoiseConnection}
    (hsend : Proc.exec (blobs.forM sendBlob) sender = (.ok (), sender'))
    (hin : receiver.inbound = pieces.map .ok)
    (hcut : receiver.readBuf ++ pieces.flatten =
      (sender'.outbound.drop sender.outbound.length).flatten) :
    ∀ k ≤ blobs.length, ∃ buf left, left <:+ pieces ∧
      Proc.exec (recvBlobs maxBlobBytes k) receiver =
        (.ok (blobs.take k), { receiver with readBuf := buf, inbound := left.map .ok }) ∧
      receiver.readBuf ++ pieces.flatten =
        (blobs.take k).flatMap frame ++ (buf ++ left.flatten) ∧
      buf ++ left.flatten = (blobs.drop k).flatMap frame := by
  intro k hk
  obtain ⟨hlen, rfl⟩ := of_exec_forM_sendBlob hsend
  rw [NoiseConnection.sent, List.drop_left, flatten_flatMap_blobChunks] at hcut
  have hunread : receiver.unread =
      (blobs.take k).flatMap frame ++ (blobs.drop k).flatMap frame := by
    rw [← List.flatMap_append, List.take_append_drop, ← hcut, NoiseConnection.unread,
      Inlet.stream, NoiseConnection.inlet, hin, Inlet.intact_map_ok]
  obtain ⟨conn', hexec, hrest, hadv⟩ := exec_recvBlobs
    (fun blob hblob ↦ hlen blob (List.mem_of_mem_take hblob)) (by decide) hunread
  rw [List.length_take_of_le hk] at hexec
  obtain ⟨left, hleft, heq⟩ := List.suffix_map_iff.mp (hin ▸ hadv.inbound_suffix)
  have hbuf : conn'.readBuf ++ left.flatten = (blobs.drop k).flatMap frame := by
    rw [← hrest, NoiseConnection.unread, Inlet.stream, NoiseConnection.inlet, heq,
      Inlet.intact_map_ok]
  refine ⟨conn'.readBuf, left, hleft, ?_, ?_, hbuf⟩
  · rw [hexec, ← heq, ← hadv.outbound_eq, ← hadv.writeError_eq]
  · rw [hbuf, ← List.flatMap_append, List.take_append_drop, hcut]

/-- A connection on which nothing has happened, over a stream that never fails. -/
def NoiseConnection.fresh (inbound : List (IoResult (List UInt8))) : NoiseConnection :=
  ⟨[], inbound, [], fun _ ↦ none⟩

/-- A blob of one byte and an empty one, received in chunks that straddle both. -/
theorem exec_recvBlobs_straddling : ∃ buf left : List _,
    left <:+ [[0, 0, 0], [], [0, 0, 0, 0, 1, 7, 0], [0, 0, 0, 0, 0, 0, 0]] ∧
      Proc.exec (recvBlobs maxBlobBytes 1) (.fresh
          [.ok [0, 0, 0], .ok [], .ok [0, 0, 0, 0, 1, 7, 0], .ok [0, 0, 0, 0, 0, 0, 0]]) =
        (.ok [[7]], ⟨buf, left.map .ok, [], fun _ ↦ none⟩) ∧
      [0, 0, 0, 0, 0, 0, 0, 1, 7, 0, 0, 0, 0, 0, 0, 0, 0] = frame [7] ++ (buf ++ left.flatten) ∧
      buf ++ left.flatten = frame [] :=
  @exec_recvBlobs_of_sendBlob [[7], []] [[0, 0, 0], [], [0, 0, 0, 0, 1, 7, 0], [0, 0, 0, 0, 0, 0, 0]]
    (.fresh []) _ (.fresh _) (exec_forM_sendBlob (by decide) fun _ ↦ rfl) rfl (by decide) 1 (by decide)

end Receive

end Lilsync
