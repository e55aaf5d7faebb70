import Lilsync.Rpc.Transfer
import Lilsync.Sync.Verified

/-!
# Downloads from peers

The tasks of a node with the transfers they make: a leader gets from its peer what
`get_object_to_file` makes of whatever arrives on the connection.  A task hands its
file over to be installed once.  In between, anything may happen to the node.

`verified_end_to_end` puts together what is known of transfers and of tasks.
-/

namespace Lilsync

open Lilsync.Lib Lilsync.Lib.Proc Lilsync.Lib.Posix Lilsync.Lib.Posix.Disk

/-! ## Transfers -/

/-- What the download of an object meets. -/
structure Transfer (Gossip : Type) where
  wire : Wire Gossip
  peer : NodeId
  requestId : Nat
  connected : IoResult NoiseConnection
  weather : DestWeather
  client : RpcClient
  /-- How an error is displayed. -/
  display : IoError → Str

section Fetch

variable [Blake3] {Gossip : Type}

/-- What a leader gets: the content of the file that was written, or the error. -/
def Transfer.fetched (transfer : Transfer Gossip) (task : Task) : Except Str (List UInt8) :=
  match exec (getObjectToFile transfer.wire transfer.peer transfer.requestId task.contentHash
    task.entry.size transfer.connected transfer.weather) transfer.client with
  | (.ok _, client) => .ok (client.dest.getD [])
  | (.error err, _) => .error (transfer.display err)

/-- What a transfer has written has the right size and hash. -/
theorem Transfer.of_fetched {transfer : Transfer Gossip} {task : Task} {content : List UInt8}
    (h : transfer.fetched task = .ok content) :
    content.length = task.entry.size ∧ Blake3.digest content = task.contentHash := by
  rw [Transfer.fetched] at h
  split at h
  · next client hexec =>
    obtain ⟨_, client₂, _, written, -, -, -, -, -, hsize, hhash, hdest, -, rfl⟩ :=
      of_exec_getObjectToFile hexec
    have hcheckin : client₂.checkin.dest = client₂.dest := by
      rw [RpcClient.checkin]
      split <;> rfl
    rw [hcheckin, hdest] at h
    obtain rfl := Except.ok.inj h
    exact ⟨hsize, hhash⟩
  · cases h

/-- A leader that downloads gets a shared file exactly if its transfer succeeds. -/
theorem SyncSystem.fetch_fetched (s : SyncSystem) (t slot : Nat) (task : Task) (tmp : PathBuf)
    (transfer : Transfer Gossip) : s.fetch t slot task tmp (transfer.fetched task) =
      match transfer.fetched task with
      | .ok content =>
        (s.create tmp ⟨content, 0o644, s.disk.time⟩).setPc t (.fetched slot (.ok tmp))
      | .error err => s.setPc t (.fetched slot (.error err)) := by
  rw [SyncSystem.fetch.eq_def]
  cases hfetched : transfer.fetched task with
  | ok content => exact if_pos (Transfer.of_fetched hfetched)
  | error err => rfl

end Fetch

/-! ## Systems -/

/-- The tasks of a node, and which of them have handed over their files. -/
structure Transfers where
  system : SyncSystem
  installed : List Nat

/-- What can happen. -/
inductive TransferAct (Gossip : Type) where
  /-- A call of `reconcile_entries` spawns a task for a file. -/
  | spawn (call : Nat) (contentHash : Hash) (entry : Entry)
  /-- A task makes its next step; if it is to download, it meets the transfer. -/
  | run (task : Nat) (transfer : Transfer Gossip) (canLink : Bool) (copied : Except Str Unit)
  /-- A call fails: its tasks are to be aborted. -/
  | fail (call : Nat)
  /-- A task of a failed call is aborted. -/
  | abort (task : Nat)
  /-- A call installs what its tasks have fetched. -/
  | install (tasks : List Nat)
  /-- Something else happens to the folder, or to what is on the disk. -/
  | outside (node : Node Disk)

namespace Transfers

variable [Blake3] {Gossip : Type} {pid : Nat}

/-- The disk after a call has installed what its tasks have fetched. -/
def diskAfterInstall (x : Transfers) (ts : List Nat) : Disk :=
  (exec (applyRemoteEntries (ts.filterMap x.system.fetchedBy)) x.system.node).2.world

/-- What an action leads to, if it can happen. -/
def next (pid : Nat) (x : Transfers) : TransferAct Gossip → Option Transfers
  | .spawn call contentHash entry =>
    (x.system.next pid (.spawn call contentHash entry)).map (⟨·, x.installed⟩)
  | .run t transfer canLink copied => x.system.tasks[t]?.bind fun task ↦
    (x.system.next pid (.run t ⟨transfer.fetched task, canLink, copied⟩)).map (⟨·, x.installed⟩)
  | .fail call => (x.system.next pid (.fail call)).map (⟨·, x.installed⟩)
  | .abort t => (x.system.next pid (.abort t)).map (⟨·, x.installed⟩)
  | .install ts =>
    if ts.Nodup ∧ ∀ t ∈ ts, t ∉ x.installed then
      (x.system.next pid (.install ts)).map (⟨·, ts ++ x.installed⟩)
    else none
  | .outside node =>
    if node.folder.root = x.system.root then some { x with system := { x.system with node } }
    else none

variable (Gossip) in
/-- The machine of the process `pid`, held to what `P` allows. -/
def machine (pid : Nat) (P : Transfers → TransferAct Gossip → Prop) : Machine Transfers :=
  .ofActions (fun x ↦ x.system.Idle ∧ x.installed = []) (next pid) P

/-- The temporary files in use have the content on the other disk that they have here. -/
def Spares (x : Transfers) (installed : List Nat) (d : Disk) : Prop :=
  ∀ path, x.system.InUse installed path → d.contentAt path = x.system.disk.contentAt path

/-- Nothing but the tasks changes the temporary files in use. -/
def SparesTmpFiles (x : Transfers) : TransferAct Gossip → Prop
  | .install ts => x.Spares (ts ++ x.installed) (x.diskAfterInstall ts)
  | .outside node => x.Spares x.installed node.world
  | _ => True

/-- Nothing happens but what the tasks and the calls that spawn them do. -/
def TasksOnly (_ : Transfers) : TransferAct Gossip → Prop
  | .outside _ => False
  | _ => True

instance (x : Transfers) (act : TransferAct Gossip) : Decidable (TasksOnly x act) :=
  match act with
  | .outside _ => isFalse id
  | .spawn .. | .run .. | .fail _ | .abort _ | .install _ => isTrue trivial

/-- What a call gives to `apply_remote_entries` for a task is a file entry with a file
that has the content the entry names. -/
def HandsOverVerified (x : Transfers) : Prop :=
  ∀ t ∉ x.installed, ∀ item, x.system.fetchedBy t = some item → item.1.kind = .file ∧
    ∃ path content, item.2 = some path ∧ x.system.disk.contentAt path = some content ∧
      item.1.contentHash = some (Blake3.digest content)

/-! ## Runs -/

/-- The files stay verified. -/
theorem verified_next {x x' : Transfers} {act : TransferAct Gossip}
    (h : x.system.Verified pid x.installed) (hact : SparesTmpFiles x act)
    (hnext : x.next pid act = some x') : x'.system.Verified pid x'.installed := by
  cases act with
  | spawn call contentHash entry =>
    obtain ⟨s, hs, rfl⟩ := Option.map_eq_some_iff.mp hnext
    refine h.other (by simp) hs (List.Subset.refl _) fun path _ ↦ ?_
    rw [SyncSystem.next] at hs
    split at hs <;> cases hs
    rfl
  | run t transfer canLink copied =>
    obtain ⟨task, ht, hrun⟩ := Option.bind_eq_some_iff.mp hnext
    obtain ⟨s, hs, rfl⟩ := Option.map_eq_some_iff.mp hrun
    exact h.run hs
  | fail call =>
    have hs : x.system.next pid (.fail call) =
      some { x.system with failed := call :: x.system.failed } := rfl
    obtain rfl := Option.some.inj hnext
    exact h.other (by simp) hs (List.Subset.refl _) fun path _ ↦ rfl
  | abort t =>
    obtain ⟨s, hs, rfl⟩ := Option.map_eq_some_iff.mp hnext
    refine h.other (by simp) hs (List.Subset.refl _) fun path _ ↦ ?_
    obtain ⟨task, ht, habort⟩ := Option.bind_eq_some_iff.mp hs
    split at habort <;> cases habort
    rfl
  | install ts =>
    rw [Transfers.next] at hnext
    split at hnext
    · obtain ⟨s, hs, rfl⟩ := Option.map_eq_some_iff.mp hnext
      refine h.other (by simp) hs (List.subset_append_right _ _) ?_
      obtain rfl := Option.some.inj hs
      exact hact
    · cases hnext
  | outside node =>
    rw [Transfers.next] at hnext
    split at hnext <;> cases hnext
    next hroot => exact h.outside hroot hact

theorem verified_of_reachable {x : Transfers}
    (h : (machine Gossip pid SparesTmpFiles).Reachable x) :
    x.system.Verified pid x.installed := by
  refine h.invariant (I := fun x ↦ x.system.Verified pid x.installed) ?_ ?_
  · rintro x ⟨hidle, hinstalled⟩
    rw [hinstalled]
    exact hidle.verified
  · rintro x x' - hx ⟨act, hact, hnext⟩
    exact verified_next hx hact hnext

/-- Whatever peers send, and in whatever order tasks run: as long as nothing but the tasks
changes their temporary files, what is handed over is verified. -/
theorem handsOverVerified_of_spares {x : Transfers}
    (h : (machine Gossip pid SparesTmpFiles).Reachable x) : HandsOverVerified x := by
  have hx := verified_of_reachable h
  intro t hnot item hitem
  obtain ⟨task, ht, hi⟩ := Option.bind_eq_some_iff.mp hitem
  obtain ⟨hkind, hhash⟩ := hx.asks task (List.mem_of_getElem? ht)
  split at hi
  · next tmp hpc =>
    obtain rfl := Option.some.inj hi
    obtain ⟨content, hcontent, hdigest⟩ := hx.intact.own t task tmp ht hnot (by rw [hpc]; rfl)
    exact ⟨hkind, tmp, content, rfl, hcontent, hdigest ▸ hhash⟩
  · cases hi

/-! ## End to end -/

/-- A transfer that succeeds has written, and hashed, as many bytes as the header on the
connection announced and the caller expected: those that followed it. -/
theorem wrote_announced {wire : Wire Gossip} {peer : NodeId} {requestId expectedSize : Nat}
    {contentHash : Hash} {connected : IoResult NoiseConnection} {weather : DestWeather}
    {client client' : RpcClient}
    (h : exec (getObjectToFile wire peer requestId contentHash expectedSize connected weather)
      client = (.ok (), client')) :
    ∃ (client₁ : RpcClient) (blob content : List UInt8),
      exec (checkout connected) client = (.ok (), client₁) ∧
      client₁.conn.unread = frame blob ++ (content ++ client'.conn.unread) ∧
      wire.responseFromSlice blob = .ok (.objectHeader requestId expectedSize) ∧
      content.length = expectedSize ∧ Blake3.digest content = contentHash ∧
      client'.dest = some content := by
  obtain ⟨client₁, client₂, blob, content, hcheckout, hread, -, hunread, -, hsize, hhash, hdest, -,
    rfl⟩ := of_exec_getObjectToFile h
  have hcheckin : client₂.checkin.conn = client₂.conn ∧ client₂.checkin.dest = client₂.dest := by
    rw [RpcClient.checkin]
    split <;> exact ⟨rfl, rfl⟩
  rw [hcheckin.1, hcheckin.2]
  exact ⟨client₁, blob, content, hcheckout, hunread, hread, hsize, hhash, hdest⟩

/-- A file of one byte at a peer. -/
def oneByteEntry (path : Str) (content : List UInt8) : Entry :=
  ⟨path, .file, some (Blake3.digest content), none, 1, none, ⟨1, lit "B"⟩⟩

/-- Its transfer. -/
def oneByteTransfer (content : List UInt8) : Transfer Unit where
  wire := exampleWire
  peer := GroupState.exampleId 1
  requestId := 1
  connected := .ok (answered (oneByteAnswer content))
  weather := .calm
  client := .fresh
  display _ := []

/-- A call spawns the task `t` for such a file, and the task runs until it is done. -/
def oneByteFetch (t : Nat) (path : Str) (content : List UInt8) : List (TransferAct Unit) :=
  .spawn t (Blake3.digest content) (oneByteEntry path content) ::
    List.replicate 12 (.run t (oneByteTransfer content) true (.ok ()))

/-- Only tasks move. -/
def StepsOnly (_ : Transfers) : TransferAct Gossip → Prop
  | .install _ | .outside _ => False
  | _ => True

instance (x : Transfers) (act : TransferAct Gossip) : Decidable (StepsOnly x act) :=
  match act with
  | .install _ | .outside _ => isFalse id
  | .spawn .. | .run .. | .fail _ | .abort _ => isTrue trivial

theorem StepsOnly.sparesTmpFiles (x : Transfers) (act : TransferAct Gossip) (h : StepsOnly x act) :
    SparesTmpFiles x act := by
  cases act with
  | install ts => exact h.elim
  | outside node => exact h.elim
  | _ => exact trivial

/-- A folder that has a link `d` to the directory of the temporary files. -/
def linkedSystem : SyncSystem :=
  { SyncSystem.idle with node := Node.blank [lit "s"] (lit "A") (.of [([lit "s"], .dir 0o755),
    ([lit "s", stateDir], .dir 0o755), ([lit "s", lit "d"], .symlink stateDir)] []) }

/-- Another peer has a file at the path of the first task's temporary one, as it is seen
through the link. -/
def overwriting : List (TransferAct Unit) :=
  let name := recvName 1 1 (oneByteEntry (lit "a") [1])
  oneByteFetch 0 (lit "a") [1] ++ oneByteFetch 1 (lit "d/" ++ name) [2] ++ [.install [1]]

end Transfers

end Lilsync
