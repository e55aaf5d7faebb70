import Lilsync.Blake3
import Lilsync.Rpc
import Lilsync.Sync.Download
import Lilsync.Transport

/-!
# Object transfers

`get_object_to_file` and `handle_get_object` of `rpc.rs`.  The server announces a
size and then sends the file up to its end; the client receives as many bytes as
were announced, and hashes them.  Whether the server sent more is not asked.

Timeouts are errors in what the client receives.
-/

namespace Lilsync

open Lilsync.Lib Lilsync.Lib.Proc

/-! ## The server -/

/-- How serde writes messages and reads them. -/
structure Wire (Gossip : Type) where
  requestToVec : RequestMessage Gossip → IoResult (List UInt8)
  responseToVec : ResponseMessage → IoResult (List UInt8)
  responseFromSlice : List UInt8 → IoResult ResponseMessage

/-- A response is read as it was written. -/
def Wire.ReadsBack {Gossip : Type} (wire : Wire Gossip) : Prop :=
  ∀ response bytes, wire.responseToVec response = .ok bytes →
    wire.responseFromSlice bytes = .ok response

/-- A file while it is served: whether it can be opened, its length when it is
asked for, and what each read finds.  It may change in between. -/
structure ServedFile where
  opened : IoResult Unit
  metadata : IoResult Nat
  reads : Nat → IoResult (List UInt8)

/-- `object_file`. -/
def FolderState.objectFile (folder : FolderState) (contentHash : Hash) : Option (PathBuf × Nat) :=
  (OrdMap.values folder.entries).findSome? fun entry ↦
    if entry.kind = .file ∧ entry.contentHash = some contentHash then
      some (folder.root.join entry.path, entry.size)
    else none

/-- The first turns of the loop that sends a file, `n` reads having been made. -/
def sendReads (file : ServedFile) : Nat → Nat → Conn Unit
  | 0, _ => pure ()
  | turns + 1, n =>
    match file.reads n with
    | .error err => throw err
    | .ok bytes =>
      let buf := bytes.take maxPlaintextChunk
      if buf = [] then pure ()
      else do
        sendPlainChunk buf
        sendReads file turns (n + 1)

/-- `handle_get_object`, as far as it has got after some turns of its loop. -/
def handleGetObject {Gossip : Type} (wire : Wire Gossip) (state : FolderState) (group : GroupState)
    (peer : NodeId) (requestId : Nat) (contentHash : Hash) (files : PathBuf → ServedFile)
    (turns : Nat) : Conn Unit :=
  let refuse (message : Str) : Conn Unit :=
    sendJson (wire.responseToVec (.error requestId message))
  if ¬ group.isActiveMember peer then refuse (lit "peer is not a group member")
  else match state.objectFile contentHash with
    | none => refuse (lit "object " ++ toHex contentHash ++ lit " not found")
    | some (path, expectedSize) =>
      let file := files path
      match file.opened, file.metadata with
      | .error _, _ => throw (.other (.openObject path))
      | .ok _, .error err => throw err
      | .ok _, .ok size =>
        if size ≠ expectedSize then
          refuse (lit "object " ++ toHex contentHash ++ lit " changed before transfer: expected "
            ++ decimal expectedSize ++ lit " bytes, got " ++ decimal size)
        else do
          sendJson (wire.responseToVec (.objectHeader requestId size))
          sendReads file turns 0

/-! ## The client -/

/-- `POOL_SIZE`. -/
def poolSize : Nat := maxConcurrentFetches

/-- What a transfer works on: the connection in use, those that the pool keeps for
the peer, and the content of the file at the destination, if there is one. -/
structure RpcClient where
  conn : NoiseConnection
  idle : List NoiseConnection
  dest : Option (List UInt8)

/-- What the destination meets: whether it can be created, where writing to it
stops, with how much of what is left written, whether it can be synced, and
whether it can be removed. -/
structure DestWeather where
  created : IoResult Unit
  write : Nat → Option (Nat × IoError)
  synced : IoResult Unit
  removed : IoResult Unit

/-- Programs of a client. -/
abbrev ClientM := Proc IoError RpcClient

/-- A program on the connection in use. -/
def onConn {α : Type} (m : Conn α) : ClientM α :=
  Proc.zoom RpcClient.conn (fun client conn ↦ { client with conn }) m

/-- `checkout`, or else `connect`. -/
def checkout (connected : IoResult NoiseConnection) : ClientM Unit := do
  let client ← get
  match client.idle with
  | conn :: idle => set { client with conn, idle }
  | [] =>
    match connected with
    | .ok conn => set { client with conn }
    | .error err => throw err

/-- `checkin`. -/
def RpcClient.checkin (client : RpcClient) : RpcClient :=
  if client.idle.length < poolSize then { client with idle := client.idle ++ [client.conn] }
  else client

/-- `File::create`. -/
def createDest (weather : DestWeather) : ClientM Unit :=
  match weather.created with
  | .ok _ => modify fun client ↦ { client with dest := some [] }
  | .error err => throw err

/-- `write_all`. -/
def writeDest (weather : DestWeather) (bytes : List UInt8) : ClientM Unit := do
  let client ← get
  let content := client.dest.getD []
  match weather.write content.length with
  | none => set { client with dest := some (content ++ bytes) }
  | some (written, err) => do
    set { client with dest := some (content ++ bytes.take written) }
    throw err

/-- `remove_file`, whose result nothing looks at. -/
def removeDest (weather : DestWeather) : ClientM Unit :=
  match weather.removed with
  | .ok _ => modify fun client ↦ { client with dest := none }
  | .error _ => pure ()

/-- The loop of `stream_to_file`, and what it has hashed at the end: the number of
steps bounds the number of turns. -/
def receiveObject (weather : DestWeather) : Nat → Nat → List UInt8 → ClientM (List UInt8)
  | 0, _, hashed => pure hashed
  | steps + 1, remaining, hashed =>
    if remaining = 0 then pure hashed
    else do
      let toRead := min remaining maxPlaintextChunk
      let buf ← onConn (recvPlainExact toRead)
      writeDest weather buf
      receiveObject weather steps (remaining - toRead) (hashed ++ buf)

section Client

variable [Blake3] {Gossip : Type}

/-- `stream_to_file`. -/
def streamToFile (size : Nat) (expectedHash : Hash) (weather : DestWeather) : ClientM Unit := do
  createDest weather
  let hashed ← receiveObject weather size size []
  match weather.synced with
  | .error err => throw err
  | .ok _ =>
    let actualHash := Blake3.digest hashed
    if actualHash ≠ expectedHash then
      throw (.other (.objectHashMismatch (toHex expectedHash) (toHex actualHash)))

/-- The end of `get_object_to_file`, once the size is known: the connection goes back to
the pool, or what was written is removed. -/
def streamOrRemove (size : Nat) (contentHash : Hash) (weather : DestWeather) : ClientM Unit := do
  match ← attempt (streamToFile size contentHash weather) with
  | .ok _ => modify RpcClient.checkin
  | .error err => do
    removeDest weather
    throw err

/-- The size a header announces, or why it is no answer to the request. -/
def announcedSize (peer : NodeId) (requestId : Nat) : ResponseMessage → IoResult Nat
  | .objectHeader actual size => if actual = requestId then .ok size else unexpected
  | .error actual message =>
    if actual = requestId then .error (.other (.fromPeer message)) else unexpected
  | _ => unexpected
where
  unexpected : IoResult Nat := .error (.other (.unexpectedGetObjectResponse peer.toText))

/-- `get_object_to_file`. -/
def getObjectToFile (wire : Wire Gossip) (peer : NodeId) (requestId : Nat) (contentHash : Hash)
    (expectedSize : Nat) (connected : IoResult NoiseConnection) (weather : DestWeather) :
    ClientM Unit := do
  checkout connected
  onConn (sendJson (wire.requestToVec (.getObject requestId contentHash)))
  let header ← onConn (recvJson wire.responseFromSlice)
  match announcedSize peer requestId header with
  | .error err => throw err
  | .ok size =>
    if size ≠ expectedSize then
      throw (.other (.objectSizeMismatch peer.toText expectedSize size))
    else streamOrRemove size contentHash weather

end Client

/-! ## What the server sends -/

section Server

/-- What the first turns of the loop find in the file. -/
def ServedFile.served (file : ServedFile) : Nat → Nat → List UInt8
  | 0, _ => []
  | turns + 1, n =>
    match file.reads n with
    | .error _ => []
    | .ok bytes =>
      let buf := bytes.take maxPlaintextChunk
      if buf = [] then [] else buf ++ file.served turns (n + 1)

/-- The loop sends what it finds, as far as it can write. -/
theorem exec_sendReads (file : ServedFile) (turns n : Nat) (conn : NoiseConnection) :
    ∃ cs, (exec (sendReads file turns n) conn).2 = conn.sent cs ∧ [] ∉ cs ∧
      cs.flatten <+: file.served turns n ∧
      (conn.Writable → cs.flatten = file.served turns n) := by
  induction turns generalizing n conn with
  | zero => exact ⟨[], conn.sent_nil.symm, List.not_mem_nil, List.prefix_rfl, fun _ ↦ rfl⟩
  | succ turns ih =>
    rw [sendReads, ServedFile.served]
    cases file.reads n with
    | error err => exact ⟨[], conn.sent_nil.symm, List.not_mem_nil, List.prefix_rfl, fun _ ↦ rfl⟩
    | ok bytes =>
      dsimp only
      by_cases hbuf : bytes.take maxPlaintextChunk = []
      · rw [if_pos hbuf, if_pos hbuf]
        exact ⟨[], conn.sent_nil.symm, List.not_mem_nil, List.prefix_rfl, fun _ ↦ rfl⟩
      · rw [if_neg hbuf, if_neg hbuf]
        rcases exec_sendPlainChunk_cases (bytes.take maxPlaintextChunk) conn with h | ⟨err, h⟩
        · obtain ⟨cs, hsent, hnil, hfront, hall⟩ := ih (n + 1) (conn.sent [bytes.take _])
          rw [exec_bind_ok h, hsent, NoiseConnection.sent_sent]
          refine ⟨_, rfl, List.not_mem_cons_of_ne_of_not_mem (Ne.symm hbuf) hnil, ?_, fun hw ↦ ?_⟩
          · exact List.prefix_append_right_inj _ |>.mpr hfront
          · exact congrArg _ (hall hw)
        · rw [exec_bind_error h]
          refine ⟨[], conn.sent_nil.symm, List.not_mem_nil, List.nil_prefix, fun hw ↦ ?_⟩
          rw [exec_sendPlainChunk (List.length_take_le _ _) hw] at h
          cases h

variable {Gossip : Type} {wire : Wire Gossip} {state : FolderState} {group : GroupState}
  {peer : NodeId} {requestId : Nat} {contentHash : Hash} {files : PathBuf → ServedFile}
  {turns : Nat} {server : NoiseConnection}

/-- What a client can take for the first message of the answer is the first message:
an error, or the header, which the front of the file follows. -/
theorem exec_handleGetObject (wire : Wire Gossip) (state : FolderState) (group : GroupState)
    (peer : NodeId) (requestId : Nat) (contentHash : Hash) (files : PathBuf → ServedFile)
    (turns : Nat) (server : NoiseConnection) :
    ∃ cs, (exec (handleGetObject wire state group peer requestId contentHash files turns)
        server).2 = server.sent cs ∧ [] ∉ cs ∧
      (Torn cs ∨
        (∃ message blob, wire.responseToVec (.error requestId message) = .ok blob ∧
          blob.length ≤ maxBlobBytes ∧ cs = blobChunks blob) ∨
        ∃ path size blob cs', state.objectFile contentHash = some (path, size) ∧
          wire.responseToVec (.objectHeader requestId size) = .ok blob ∧
          blob.length ≤ maxBlobBytes ∧ cs = blobChunks blob ++ cs' ∧
          cs'.flatten <+: (files path).served turns 0 ∧
          (server.Writable → cs'.flatten = (files path).served turns 0)) := by
  have hrefuse (message : Str) : ∃ cs,
      (exec (sendJson (wire.responseToVec (.error requestId message))) server).2 =
        server.sent cs ∧ [] ∉ cs ∧
      (Torn cs ∨ ∃ message blob, wire.responseToVec (.error requestId message) = .ok blob ∧
        blob.length ≤ maxBlobBytes ∧ cs = blobChunks blob) := by
    rcases exec_sendJson_cases (wire.responseToVec (.error requestId message)) server with
      ⟨blob, hblob, hlen, h⟩ | ⟨err, cs, hnil, htorn, h⟩
    · exact ⟨_, by rw [h], nil_notMem_blobChunks blob, .inr ⟨message, blob, hblob, hlen, rfl⟩⟩
    · exact ⟨cs, by rw [h], hnil, .inl htorn⟩
  have hnothing (err : IoError) : ∃ cs, (exec (throw err : Conn Unit) server).2 = server.sent cs ∧
      [] ∉ cs ∧ Torn cs :=
    ⟨[], server.sent_nil.symm, List.not_mem_nil, torn_nil⟩
  rw [handleGetObject]
  dsimp only
  split
  · obtain ⟨cs, hsent, hnil, h⟩ := hrefuse (lit "peer is not a group member")
    exact ⟨cs, hsent, hnil, h.imp_right .inl⟩
  · split
    · obtain ⟨cs, hsent, hnil, h⟩ := hrefuse (lit "object " ++ toHex contentHash ++ lit " not found")
      exact ⟨cs, hsent, hnil, h.imp_right .inl⟩
    · next path expectedSize hobject =>
      split
      · obtain ⟨cs, hsent, hnil, h⟩ := hnothing (.other (.openObject path))
        exact ⟨cs, hsent, hnil, .inl h⟩
      · next _ err _ _ =>
        obtain ⟨cs, hsent, hnil, h⟩ := hnothing err
        exact ⟨cs, hsent, hnil, .inl h⟩
      · next size _ _ =>
        split
        · obtain ⟨cs, hsent, hnil, h⟩ := hrefuse (lit "object " ++ toHex contentHash
            ++ lit " changed before transfer: expected " ++ decimal expectedSize
            ++ lit " bytes, got " ++ decimal size)
          exact ⟨cs, hsent, hnil, h.imp_right .inl⟩
        · next hsize =>
          rw [not_not] at hsize
          subst hsize
          rcases exec_sendJson_cases (wire.responseToVec (.objectHeader requestId size)) server with
            ⟨blob, hblob, hlen, h⟩ | ⟨err, cs, hnil, htorn, h⟩
          · obtain ⟨cs', hsent, hnil, hfront, hall⟩ :=
              exec_sendReads (files path) turns 0 (server.sent (blobChunks blob))
            rw [exec_bind_ok h, hsent, NoiseConnection.sent_sent]
            refine ⟨_, rfl, List.not_mem_append (nil_notMem_blobChunks blob) hnil, .inr (.inr ?_)⟩
            exact ⟨path, size, blob, cs', hobject, hblob, hlen, rfl, hfront, hall⟩
          · rw [exec_bind_error h]
            exact ⟨cs, rfl, hnil, .inl htorn⟩

end Server

/-! ## What the client receives -/

section Receive

variable {client client' : RpcClient} {weather : DestWeather}

theorem of_exec_onConn {α : Type} {m : Conn α} {a : α}
    (h : exec (onConn m) client = (.ok a, client')) :
    exec m client.conn = (.ok a, client'.conn) ∧ client' = { client with conn := client'.conn } := by
  rw [onConn, exec_zoom] at h
  obtain ⟨hres, rfl⟩ := Prod.mk.inj h
  exact ⟨Prod.ext hres rfl, rfl⟩

theorem of_exec_writeDest {bytes : List UInt8}
    (h : exec (writeDest weather bytes) client = (.ok (), client')) :
    client' = { client with dest := some (client.dest.getD [] ++ bytes) } := by
  rw [writeDest, exec_get_bind] at h
  dsimp only at h
  split at h <;> cases h
  rfl

/-- The loop writes what it hashes, and takes it from the connection. -/
theorem of_exec_receiveObject {steps remaining : Nat} {hashed content : List UInt8}
    (hsteps : remaining ≤ steps) (hdest : client.dest = some hashed)
    (h : exec (receiveObject weather steps remaining hashed) client = (.ok content, client')) :
    ∃ bytes, content = hashed ++ bytes ∧ bytes.length = remaining ∧
      client'.dest = some content ∧ client'.idle = client.idle ∧
      client.conn.unread = bytes ++ client'.conn.unread ∧ client.conn.Advances client'.conn := by
  induction steps generalizing remaining hashed client with
  | zero =>
    cases h
    obtain rfl := Nat.le_zero.mp hsteps
    exact ⟨[], (List.append_nil _).symm, rfl, hdest, rfl, rfl, .refl _⟩
  | succ steps ih =>
    rw [receiveObject] at h
    split at h
    · next hzero =>
      cases h
      exact ⟨[], (List.append_nil _).symm, hzero.symm, hdest, rfl, rfl, .refl _⟩
    · next hpos =>
      obtain ⟨buf, client₁, h₁, h⟩ := of_exec_bind h
      obtain ⟨_, client₂, h₂, h⟩ := of_exec_bind h
      obtain ⟨hrecv, hclient₁⟩ := of_exec_onConn h₁
      obtain ⟨hlen, hunread, hadv⟩ := of_exec_recvPlainExact hrecv
      have hdest₁ : client₁.dest = some hashed := by rw [hclient₁, hdest]
      have hidle₁ : client₁.idle = client.idle := by rw [hclient₁]
      obtain rfl := of_exec_writeDest h₂
      have hchunk : 0 < maxPlaintextChunk := by decide
      obtain ⟨bytes, rfl, hlen', hdest', hidle, hunread', hadv'⟩ := ih
        (by omega) (by rw [hdest₁, Option.getD_some]) h
      refine ⟨buf ++ bytes, List.append_assoc .., ?_, hdest', hidle.trans hidle₁, ?_,
        hadv.trans hadv'⟩
      · rw [List.length_append, hlen, hlen']
        omega
      · rw [hunread, List.append_assoc]
        exact congrArg _ hunread'

variable [Blake3] {size : Nat} {expectedHash : Hash}

/-- A stream that ends well has left a file of the right size and hash. -/
theorem of_exec_streamToFile
    (h : exec (streamToFile size expectedHash weather) client = (.ok (), client')) :
    ∃ content, content.length = size ∧ Blake3.digest content = expectedHash ∧
      client'.dest = some content ∧ client'.idle = client.idle ∧
      client.conn.unread = content ++ client'.conn.unread ∧
      client.conn.Advances client'.conn := by
  rw [streamToFile] at h
  obtain ⟨_, client₁, hcreate, hrest⟩ := of_exec_bind h
  have hclient₁ : client₁ = { client with dest := some [] } := by
    rw [createDest] at hcreate
    split at hcreate <;> cases hcreate
    rfl
  subst hclient₁
  obtain ⟨content, client₂, hrecv, hcheck⟩ := of_exec_bind hrest
  obtain ⟨_, rfl, hlen, hdest, hidle, hunread, hadv⟩ := of_exec_receiveObject le_rfl rfl hrecv
  split at hcheck
  · cases hcheck
  · dsimp only at hcheck
    split at hcheck
    · cases hcheck
    · next hhash =>
      cases hcheck
      exact ⟨content, hlen, not_not.mp hhash, hdest, hidle, hunread, hadv⟩

/-- A connection goes back to the pool after a stream that ended well. -/
theorem of_exec_streamOrRemove
    (h : exec (streamOrRemove size expectedHash weather) client = (.ok (), client')) :
    ∃ client₁, exec (streamToFile size expectedHash weather) client = (.ok (), client₁) ∧
      client' = client₁.checkin := by
  rw [streamOrRemove, exec_attempt_bind] at h
  rcases hstream : exec (streamToFile size expectedHash weather) client with ⟨err | _, client₁⟩ <;>
    rw [hstream] at h
  · cases (of_exec_bind h).choose_spec.choose_spec.2
  · cases h
    exact ⟨client₁, rfl, rfl⟩

/-- After a stream that failed there is no file at the destination, if it can be removed. -/
theorem exec_streamOrRemove_of_error {err : IoError}
    (h : exec (streamToFile size expectedHash weather) client = (.error err, client'))
    (hremoved : weather.removed = .ok ()) :
    exec (streamOrRemove size expectedHash weather) client =
      (.error err, { client' with dest := none }) := by
  rw [streamOrRemove, exec_attempt_bind, h]
  dsimp only
  rw [removeDest, hremoved]
  rfl

/-! ### What is left at the destination -/

/-- A file at the destination stays there. -/
def KeepsDest (client client' : RpcClient) : Prop := client.dest ≠ none → client'.dest ≠ none

instance : IsPreorder RpcClient KeepsDest where
  refl _ := id
  trans _ _ _ h h' := h' ∘ h

omit [Blake3] in
theorem keepsDest_receiveObject (weather : DestWeather) (steps remaining : Nat)
    (hashed : List UInt8) : Keeps KeepsDest (receiveObject weather steps remaining hashed) := by
  induction steps generalizing remaining hashed with
  | zero => exact keeps_pure hashed
  | succ steps ih =>
    rw [receiveObject]
    split
    · exact keeps_pure hashed
    · refine (keeps_zoom fun _ _ ↦ id).bind fun buf ↦ Keeps.bind ?_ fun _ ↦ ih _ _
      refine keeps_get.bind fun client ↦ ?_
      dsimp only
      split
      · exact fun _ _ ↦ Option.some_ne_none _
      · exact Keeps.bind (fun _ _ ↦ Option.some_ne_none _) fun _ ↦ keeps_throw _

/-- A stream leaves nothing at its destination exactly if it could not create the file and
there was none. -/
theorem dest_streamToFile : (exec (streamToFile size expectedHash weather) client).2.dest = none ↔
    (∃ err, weather.created = .error err) ∧ client.dest = none := by
  rw [streamToFile, createDest]
  cases weather.created with
  | error err => exact ⟨fun h ↦ ⟨⟨err, rfl⟩, h⟩, fun h ↦ h.2⟩
  | ok =>
    have hkeeps : Keeps KeepsDest (receiveObject weather size size [] >>= fun hashed ↦
        match weather.synced with
        | .error err => throw err
        | .ok _ =>
          let actualHash := Blake3.digest hashed
          if actualHash ≠ expectedHash then
            throw (.other (.objectHashMismatch (toHex expectedHash) (toHex actualHash)))
          else pure () : ClientM Unit) := by
      refine (keepsDest_receiveObject weather size size []).bind fun hashed ↦ ?_
      split
      · exact keeps_throw _
      · dsimp only
        split
        · exact keeps_throw _
        · exact keeps_pure ()
    constructor
    · intro h
      exact absurd h (hkeeps { client with dest := some [] } (Option.some_ne_none _))
    · rintro ⟨⟨err, herr⟩, -⟩
      cases herr

/-- A stream that failed leaves no file at its destination exactly if the file can be
removed, or was never created. -/
theorem dest_streamOrRemove_of_error {err : IoError}
    (h : exec (streamToFile size expectedHash weather) client = (.error err, client')) :
    (exec (streamOrRemove size expectedHash weather) client).2.dest = none ↔
      weather.removed = .ok () ∨ (∃ err, weather.created = .error err) ∧ client.dest = none := by
  cases hremoved : weather.removed with
  | ok =>
    rw [exec_streamOrRemove_of_error h hremoved]
    exact iff_of_true rfl (.inl rfl)
  | error err' =>
    have hleft : (exec (streamOrRemove size expectedHash weather) client).2.dest =
        (exec (streamToFile size expectedHash weather) client).2.dest := by
      rw [streamOrRemove, exec_attempt_bind, h]
      dsimp only
      rw [removeDest, hremoved]
      rfl
    rw [hleft, dest_streamToFile]
    exact (or_iff_right (by simp)).symm

variable {Gossip : Type} {wire : Wire Gossip} {peer : NodeId} {requestId expectedSize : Nat}
  {contentHash : Hash} {connected : IoResult NoiseConnection}

omit [Blake3] in
/-- A size is announced by a header with the id of the request. -/
theorem of_announcedSize {header : ResponseMessage}
    (h : announcedSize peer requestId header = .ok size) :
    header = .objectHeader requestId size := by
  rw [announcedSize.eq_def] at h
  split at h
  · split at h
    · next hid =>
      cases h
      rw [hid]
    · cases h
  · split at h <;> cases h
  · cases h

/-- What a download that succeeds has done. -/
theorem of_exec_getObjectToFile
    (h : exec (getObjectToFile wire peer requestId contentHash expectedSize connected weather)
      client = (.ok (), client')) :
    ∃ (client₁ client₂ : RpcClient) (blob content : List UInt8),
      exec (checkout connected) client = (.ok (), client₁) ∧
      wire.responseFromSlice blob = .ok (.objectHeader requestId expectedSize) ∧
      blob.length < 2 ^ 64 ∧
      client₁.conn.unread = frame blob ++ (content ++ client₂.conn.unread) ∧
      client₂.conn.inbound <:+ client₁.conn.inbound ∧
      content.length = expectedSize ∧ Blake3.digest content = contentHash ∧
      client₂.dest = some content ∧ client₂.idle = client₁.idle ∧ client' = client₂.checkin := by
  rw [getObjectToFile] at h
  obtain ⟨_, client₁, hcheckout, h₁⟩ := of_exec_bind h
  obtain ⟨_, client₂, hsend, h₂⟩ := of_exec_bind h₁
  obtain ⟨header, client₃, hrecv, h₃⟩ := of_exec_bind h₂
  obtain ⟨hsend, hclient₂⟩ := of_exec_onConn hsend
  obtain ⟨hrecv, hclient₃⟩ := of_exec_onConn hrecv
  obtain ⟨request, hsent⟩ := of_exec_sendJson hsend
  obtain ⟨blob, hread, hlen, hunread, hadv⟩ := of_exec_recvJson hrecv
  rw [hsent] at hunread hadv
  have hidle₃ : client₃.idle = client₁.idle := by rw [hclient₃, hclient₂]
  split at h₃
  · cases h₃
  · next size hsize =>
    split at h₃
    · cases h₃
    · next hne =>
      obtain rfl := not_not.mp hne
      obtain ⟨client₄, hstream, rfl⟩ := of_exec_streamOrRemove h₃
      obtain ⟨content, hsize', hhash, hdest, hidle, hunread', hadv'⟩ := of_exec_streamToFile hstream
      refine ⟨client₁, client₄, blob, content, hcheckout, of_announcedSize hsize ▸ hread, hlen,
        ?_, hadv'.inbound_suffix.trans hadv.inbound_suffix, hsize', hhash, hdest,
        hidle.trans hidle₃, rfl⟩
      rw [← hunread']
      exact hunread

end Receive

/-! ## Where the connection stands afterwards -/

section Boundary

variable [Blake3] {Gossip : Type} {wire : Wire Gossip} {state : FolderState} {group : GroupState}
  {clientId peer : NodeId} {requestId expectedSize turns : Nat} {contentHash : Hash}
  {files : PathBuf → ServedFile} {server server' : NoiseConnection} {client client₁ client' : RpcClient}
  {connected : IoResult NoiseConnection} {weather : DestWeather}

/-- A connection that goes back to the pool has nothing of the answer left to read, if the
file did not turn out longer than announced; and if it did, some of it is left. -/
theorem atBoundary_iff_served_le (hwire : wire.ReadsBack)
    (hserver : (exec (handleGetObject wire state group clientId requestId contentHash files turns)
      server).2 = server')
    (hcheckout : exec (checkout connected) client = (.ok (), client₁))
    (hbuf : client₁.conn.readBuf = [])
    (hin : client₁.conn.inbound = (server'.outbound.drop server.outbound.length).map .ok)
    (h : exec (getObjectToFile wire peer requestId contentHash expectedSize connected weather)
      client = (.ok (), client')) :
    ∃ path, state.objectFile contentHash = some (path, expectedSize) ∧
      client'.idle = (if client₁.idle.length < poolSize then client₁.idle ++ [client'.conn]
        else client₁.idle) ∧
      (((files path).served turns 0).length ≤ expectedSize →
        client'.conn.AtBoundary ∧ client'.conn.ReadsNext) ∧
      (server.Writable → client'.conn.AtBoundary →
        ((files path).served turns 0).length ≤ expectedSize) := by
  obtain ⟨cs, hsent, hnil, hanswer⟩ :=
    exec_handleGetObject wire state group clientId requestId contentHash files turns server
  obtain ⟨_, client₂, blob, content, hcheckout', hread, hlen, hunread, hsuffix, hsize, -, -, hidle,
    rfl⟩ := of_exec_getObjectToFile h
  obtain rfl : client₁ = _ := (Prod.mk.inj (hcheckout.symm.trans hcheckout')).2
  rw [hsent] at hserver
  rw [← hserver, NoiseConnection.sent, List.drop_left] at hin
  have hstream : client₁.conn.unread = cs.flatten := by
    rw [NoiseConnection.unread, NoiseConnection.inlet, Inlet.stream, hbuf, hin, List.nil_append,
      Inlet.intact_map_ok]
  rw [hstream] at hunread
  have hfront : frame blob <+: cs.flatten := ⟨_, hunread.symm⟩
  have hconn : client₂.checkin.conn = client₂.conn := by
    rw [RpcClient.checkin]
    split <;> rfl
  rcases hanswer with htorn | ⟨message, blob', hblob, hlen', rfl⟩ |
    ⟨path, size, blob', cs', hobject, hblob, hlen', rfl, hserved, hall⟩
  · exact absurd hfront (htorn blob hlen)
  · -- an error is no header
    rw [flatten_blobChunks, ← List.append_nil (frame blob')] at hfront
    rw [eq_of_frame_append hlen (hlen'.trans_lt (by decide)) hfront, hwire _ _ hblob] at hread
    cases hread
  · rw [List.flatten_append, flatten_blobChunks] at hfront hunread
    obtain rfl := eq_of_frame_append hlen (hlen'.trans_lt (by decide)) hfront
    rw [hwire _ _ hblob] at hread
    cases hread
    have hrest : cs'.flatten = content ++ client₂.conn.unread := List.append_cancel_left hunread
    refine ⟨path, hobject, ?_, fun hle ↦ ?_, fun hw hbound ↦ ?_⟩
    · rw [hconn, RpcClient.checkin, hidle]
      split
      · rfl
      · exact hidle
    · have hle' := hserved.length_le
      rw [hrest, List.length_append] at hle'
      have hempty : client₂.conn.unread = [] := List.eq_nil_of_length_eq_zero (by omega)
      rw [hconn]
      have hbound := NoiseConnection.atBoundary_of_unread_eq_nil hnil (hin ▸ hsuffix) hempty
      exact ⟨hbound, hbound.readsNext⟩
    · rw [hconn] at hbound
      rw [← hall hw, hrest, hbound.unread_eq_nil, List.append_nil, hsize]

/-! ### A file of one byte -/

/-- The header of an object of one byte, in JSON. -/
def oneByteHeader : List UInt8 :=
  lit "\x7b\"ObjectHeader\":\x7b\"request_id\":1,\"size\":1\x7d\x7d"

/-- JSON, as far as a request for an object and the header of one of one byte need it. -/
def exampleWire : Wire Unit where
  requestToVec
    | .getObject requestId contentHash =>
      .ok (lit "\x7b\"GetObject\":\x7b\"request_id\":" ++ decimal requestId
        ++ lit ",\"content_hash\":["
        ++ (lit ",").intercalate (contentHash.toList.map fun b ↦ decimal b.toNat)
        ++ lit "]\x7d\x7d")
    | _ => .error (.ofKind .other)
  responseToVec
    | .objectHeader 1 1 => .ok oneByteHeader
    | _ => .error (.ofKind .other)
  responseFromSlice bytes :=
    if bytes = oneByteHeader then .ok (.objectHeader 1 1) else .error (.ofKind .other)

omit [Blake3] in
theorem readsBack_exampleWire : exampleWire.ReadsBack := by
  intro response bytes h
  dsimp only [exampleWire] at h
  split at h <;> cases h
  simp only [exampleWire, if_pos]

/-- A folder with one file, which had the content `[1]` when it was scanned. -/
def oneByteFolder : FolderState :=
  { (Node.blank [lit "s"] (lit "A") ()).folder with
    entries := indexOf
      [⟨lit "f", .file, some (Blake3.digest [1]), none, 1, none, ⟨1, lit "A"⟩⟩] }

/-- A group with one active member. -/
def oneMember (peer : NodeId) : GroupState :=
  ⟨lit "A", Std.ExtTreeMap.ofList [(peer.toText, (⟨peer.toText, .active, 1⟩ : MemberEntry))]⟩

/-- A file that has one byte when it is asked, and then the given content. -/
def rewritten (content : List UInt8) : ServedFile :=
  ⟨.ok (), .ok 1, fun n ↦ .ok (if n = 0 then content else [])⟩

/-- What the server answers when the file is rewritten. -/
def oneByteAnswer (content : List UInt8) : NoiseConnection :=
  (exec (handleGetObject exampleWire oneByteFolder (oneMember (GroupState.exampleId 2))
    (GroupState.exampleId 2) 1 (Blake3.digest [1]) (fun _ ↦ rewritten content) 2) (.fresh [])).2

/-- A new connection on which the answer arrives. -/
def answered (server : NoiseConnection) : NoiseConnection := .fresh (server.outbound.map .ok)

/-- A destination that is no trouble. -/
def DestWeather.calm : DestWeather := ⟨.ok (), fun _ ↦ none, .ok (), .ok ()⟩

/-- A client without connections. -/
def RpcClient.fresh : RpcClient := ⟨.fresh [], [], none⟩

/-- The download of what the server answers. -/
def oneByteDownload (content : List UInt8) : IoResult Unit × RpcClient :=
  exec (getObjectToFile exampleWire (GroupState.exampleId 1) 1 (Blake3.digest [1]) 1
    (.ok (answered (oneByteAnswer content))) .calm) .fresh

theorem exec_oneByteDownload {content : List UInt8}
    (h : oneByteDownload content = (.ok (), client')) :
    exec (getObjectToFile exampleWire (GroupState.exampleId 1) 1 (Blake3.digest [1]) 1
      (.ok (answered (oneByteAnswer content))) .calm) .fresh = (.ok (), client') := h

theorem exists_oneByteDownload {content : List UInt8} {P : RpcClient → Prop}
    (h : (oneByteDownload content).1 = .ok () ∧ P (oneByteDownload content).2) :
    ∃ client', oneByteDownload content = (.ok (), client') ∧ P client' :=
  ⟨_, Prod.ext h.1 rfl, h.2⟩

omit [Blake3] in
theorem exec_checkout_fresh (conn : NoiseConnection) :
    exec (checkout (.ok conn)) .fresh = (.ok (), { RpcClient.fresh with conn }) := rfl

omit [Blake3] in
theorem inbound_answered (conn : NoiseConnection) : (answered conn).inbound =
    (conn.outbound.drop (NoiseConnection.fresh []).outbound.length).map .ok := rfl

omit [Blake3] in
theorem atBoundary_oneByte :
    letI : Blake3 := Blake3.reference
    ∃ client', oneByteDownload [1] = (.ok (), client') ∧ client'.idle.length = 1 ∧
      client'.conn.AtBoundary ∧ client'.conn.ReadsNext := by
  let _ : Blake3 := Blake3.reference
  obtain ⟨client', hok, hidle⟩ := @exists_oneByteDownload _ [1] (fun client ↦ client.idle.length = 1)
    (by decide +kernel)
  obtain ⟨path, -, -, hbound, -⟩ := @atBoundary_iff_served_le _ _ exampleWire oneByteFolder
    (oneMember (GroupState.exampleId 2)) (GroupState.exampleId 2) (GroupState.exampleId 1) 1 1 2
    (Blake3.digest [1]) (fun _ ↦ rewritten [1]) (.fresh []) (oneByteAnswer [1]) .fresh _ _ _ .calm
    readsBack_exampleWire (by rw [← oneByteAnswer]) (exec_checkout_fresh _) rfl (inbound_answered _)
    (exec_oneByteDownload hok)
  exact ⟨client', hok, hidle, hbound (by decide +kernel)⟩

omit [Blake3] in
/-- The counterexample: the file grows by a byte after its size was checked. -/
theorem not_forall_atBoundary :
    letI : Blake3 := Blake3.reference
    ¬ ∀ (wire : Wire Unit) (state : FolderState) (group : GroupState) (clientId peer : NodeId)
      (requestId expectedSize turns : Nat) (contentHash : Hash) (files : PathBuf → ServedFile)
      (server server' : NoiseConnection) (client client₁ client' : RpcClient)
      (connected : IoResult NoiseConnection) (weather : DestWeather), wire.ReadsBack →
      (exec (handleGetObject wire state group clientId requestId contentHash files turns)
        server).2 = server' →
      exec (checkout connected) client = (.ok (), client₁) → client₁.conn.readBuf = [] →
      client₁.conn.inbound = (server'.outbound.drop server.outbound.length).map .ok →
      exec (getObjectToFile wire peer requestId contentHash expectedSize connected weather)
        client = (.ok (), client') →
      client'.idle.length = client₁.idle.length + 1 → client'.conn.AtBoundary := by
  let _ : Blake3 := Blake3.reference
  intro h
  obtain ⟨client', hok, hidle, hread⟩ := @exists_oneByteDownload _ [1, 2]
    (fun client ↦ client.idle.length = 1 ∧ client.conn.readBuf = [2]) (by decide +kernel)
  have hbound := h exampleWire oneByteFolder (oneMember (GroupState.exampleId 2))
    (GroupState.exampleId 2) (GroupState.exampleId 1) 1 1 2 (Blake3.digest [1])
    (fun _ ↦ rewritten [1, 2]) (.fresh []) (oneByteAnswer [1, 2]) .fresh _ _ _ .calm
    readsBack_exampleWire (by rw [← oneByteAnswer]) (exec_checkout_fresh _) rfl (inbound_answered _)
    (exec_oneByteDownload hok) hidle
  cases hread.symm.trans hbound.1

end Boundary

end Lilsync
