import Lilsync.Disk
import Lilsync.Identity
import Lilsync.Lib.Machine
import Lilsync.State

/-!
# Shared downloads

`sync.rs`: the tasks that fetch the files of a reconciliation.  Entries with the
same content share a download slot: the first task to ask for a content leads
and fetches it, the others wait for the result, and each then makes a temporary
file of its own from the shared one.

Each task is a program counter that moves in atomic steps, and a system is any
number of tasks on one coordinator, with the node that installs what they have
fetched.  A call of `reconcile_entries` that fails aborts its tasks, each at an
`await`.
-/

namespace Lilsync

open Std (ExtTreeMap)
open Lilsync.Lib

/-! ## The coordinator -/

structure DownloadTarget where
  path : Str
  lamport : Nat
  origin : Str
deriving DecidableEq

/-- `DownloadTarget::from_entry`. -/
def DownloadTarget.fromEntry (entry : Entry) : DownloadTarget :=
  ⟨entry.path, entry.version.lamport, entry.version.origin⟩

structure DownloadState where
  waiters : Nat
  claimedTargets : List DownloadTarget
  result : Option (Except Str PathBuf)

structure DownloadSlot where
  state : DownloadState
  /-- Ghost: the leader has called `notify_waiters`. -/
  notified : Bool

/-- `DownloadCoordinator`.  Slots are shared by reference: `slots` is the heap
they live in, and a reference is a position in it. -/
structure DownloadCoordinator where
  active : Hash → Option Nat
  slots : List DownloadSlot

namespace DownloadCoordinator

def empty : DownloadCoordinator := ⟨fun _ ↦ none, []⟩

def modifyState (d : DownloadCoordinator) (slot : Nat) (f : DownloadState → DownloadState) :
    DownloadCoordinator :=
  { d with slots := d.slots.modify slot fun s ↦ { s with state := f s.state } }

/-- `acquire`: the slot, and whether the caller leads. -/
def acquire (d : DownloadCoordinator) (contentHash : Hash) : DownloadCoordinator × Nat × Bool :=
  match d.active contentHash with
  | some slot => (d.modifyState slot fun st ↦ { st with waiters := st.waiters + 1 }, slot, false)
  | none =>
    let slot := d.slots.length
    ({ active := Function.update d.active contentHash (some slot)
       slots := d.slots ++ [⟨⟨1, [], none⟩, false⟩] }, slot, true)

/-- `claim_target`: whether the target was not claimed before. -/
def claimTarget (d : DownloadCoordinator) (slot : Nat) (entry : Entry) :
    DownloadCoordinator × Bool :=
  let target := DownloadTarget.fromEntry entry
  match d.slots[slot]? with
  | some s =>
    if target ∈ s.state.claimedTargets then (d, false)
    else (d.modifyState slot fun st ↦
      { st with claimedTargets := target :: st.claimedTargets }, true)
  | none => (d, false)

/-- `release`: the last one out gets the shared file, to remove it. -/
def release (d : DownloadCoordinator) (contentHash : Hash) (slot : Nat) :
    DownloadCoordinator × Option PathBuf :=
  match d.slots[slot]? with
  | none => (d, none)
  | some s =>
    let waiters := s.state.waiters - 1
    let d := d.modifyState slot fun st ↦ { st with waiters }
    if waiters ≠ 0 then (d, none)
    else if d.active contentHash = some slot then
      let sharedTmp := match s.state.result with
        | some (.ok path) => some path
        | _ => none
      ({ d with active := Function.update d.active contentHash none }, sharedTmp)
    else (d, none)

end DownloadCoordinator

/-! ## Temporary files -/

/-- A number in decimal. -/
def decimal (n : Nat) : Str :=
  if n = 0 then lit "0" else (Nat.digits 10 n).reverse.map fun d ↦ (48 + d).toUInt8

/-- `tmp_recv_path`.  The numbers `id` come from a counter of the process. -/
def tmpRecvPath [Blake3] (root : PathBuf) (pid id : Nat) (entry : Entry) : PathBuf :=
  root.join stateDir ++ [lit "recv-" ++ decimal pid ++ lit "-" ++ decimal id ++ lit "-"
    ++ decimal entry.version.lamport ++ lit "-" ++ (toHex (Blake3.digest entry.path)).take 16]

/-! ## Tasks -/

/-- Where a task stands. -/
inductive Pc where
  /-- Waits for a permit. -/
  | spawned
  /-- Leads, and waits for the state to name the shared file. -/
  | naming (slot : Nat)
  /-- Leads, and downloads to the shared file. -/
  | fetching (slot : Nat) (sharedTmpPath : PathBuf)
  /-- Leads, and has a result to publish. -/
  | fetched (slot : Nat) (result : Except Str PathBuf)
  /-- Leads, and has published; `notify_waiters` comes next. -/
  | stored (slot : Nat)
  /-- Is at the top of the loop. -/
  | reading (slot : Nat)
  /-- Has read that there is no result; `notified()` comes next. -/
  | sawNone (slot : Nat)
  /-- Waits for the notification. -/
  | parked (slot : Nat)
  /-- Has read that the download failed; `release` comes next. -/
  | failing (slot : Nat) (err : Str)
  /-- Has read the shared file; `claim_target` comes next. -/
  | claiming (slot : Nat) (sharedTmpPath : PathBuf)
  /-- Found the target claimed; `release` comes next. -/
  | declined (slot : Nat)
  /-- Waits for the state to name its own file. -/
  | ownNaming (slot : Nat) (sharedTmpPath : PathBuf)
  /-- Links or copies the shared file to its own. -/
  | materializing (slot : Nat) (sharedTmpPath ownTmpPath : PathBuf)
  /-- Has its own file or failed to make it; `release` comes next. -/
  | materialized (slot : Nat) (ownTmpPath : PathBuf) (result : Except Str Unit)
  /-- Removes files, then returns. -/
  | removing (paths : List PathBuf) (result : Except Str (Option PathBuf))
  | done (result : Except Str (Option PathBuf))
  | aborted
deriving DecidableEq

/-- The task is at an `await`, where it can be aborted. -/
def Pc.isAwait : Pc → Bool
  | .spawned | .naming _ | .fetching _ _ | .parked _ | .ownNaming _ _ | .materializing _ _ _
  | .removing (_ :: _) _ => true
  | _ => false

/-- The task leads the slot and has not published. -/
def Pc.leads (slot : Nat) : Pc → Bool
  | .naming s | .fetching s _ | .fetched s _ => s == slot
  | _ => false

/-- The task leads some slot and has not published. -/
def Pc.isLeader : Pc → Bool
  | .naming _ | .fetching _ _ | .fetched _ _ => true
  | _ => false

/-- The slot on which `notify_waiters` comes next. -/
def Pc.notifies : Pc → Option Nat
  | .stored slot => some slot
  | _ => none

/-- The task holds a permit of its call. -/
def Pc.isRunning : Pc → Bool
  | .spawned | .done _ | .aborted => false
  | _ => true

/-- What `notify_waiters` does to a task: only a future that exists is woken. -/
def Pc.wake (slot : Nat) : Pc → Pc
  | .parked s => if s = slot then .reading s else .parked s
  | pc => pc

structure Task where
  /-- The call of `reconcile_entries` that spawned the task. -/
  call : Nat
  contentHash : Hash
  entry : Entry
  pc : Pc

/-! ## Systems -/

/-- The tasks of a node, running or not. -/
structure SyncSystem where
  node : Node Posix.Disk
  downloads : DownloadCoordinator
  tasks : List Task
  /-- The calls of `reconcile_entries` that have failed. -/
  failed : List Nat
  nextRecvId : Nat
  /-- Ghost: the paths that were named for shared files. -/
  sharedTmpPaths : List PathBuf
  /-- Ghost: the inodes that were downloaded or copied. -/
  received : List Nat

/-- What a task meets outside: what the peer sends, whether the file system can
link, and whether it can copy. -/
structure Weather where
  fetched : Except Str (List UInt8)
  canLink : Bool
  copied : Except Str Unit

/-- What can happen. -/
inductive SyncAct where
  /-- A call of `reconcile_entries` spawns a task for a file. -/
  | spawn (call : Nat) (contentHash : Hash) (entry : Entry)
  /-- A task makes its next step. -/
  | run (task : Nat) (weather : Weather)
  /-- A call fails: its tasks are to be aborted. -/
  | fail (call : Nat)
  /-- A task of a failed call is aborted. -/
  | abort (task : Nat)
  /-- A call installs what its tasks have fetched. -/
  | install (tasks : List Nat)

/-- `MAX_CONCURRENT_FETCHES`. -/
def maxConcurrentFetches : Nat := 8

namespace SyncSystem

def disk (s : SyncSystem) : Posix.Disk := s.node.world

def withDisk (s : SyncSystem) (d : Posix.Disk) : SyncSystem :=
  { s with node := { s.node with world := d } }

def setPc (s : SyncSystem) (t : Nat) (pc : Pc) : SyncSystem :=
  { s with tasks := s.tasks.modify t fun task ↦ { task with pc } }

/-- The permits a call has left. -/
def hasPermit (s : SyncSystem) (call : Nat) : Bool :=
  (s.tasks.filter fun task ↦ task.call == call && task.pc.isRunning).length < maxConcurrentFetches

/-- `acquire`, once there is a permit. -/
def start (s : SyncSystem) (t : Nat) (task : Task) : SyncSystem :=
  let (downloads, slot, leader) := s.downloads.acquire task.contentHash
  { s with downloads }.setPc t (if leader then .naming slot else .reading slot)

/-- A leader publishes its result. -/
def publish (s : SyncSystem) (t slot : Nat) (result : Except Str PathBuf) : SyncSystem :=
  { s with downloads := s.downloads.modifyState slot fun st ↦ { st with result := some result } }
    |>.setPc t (.stored slot)

/-- `notify_waiters`. -/
def notify (s : SyncSystem) (t slot : Nat) : SyncSystem :=
  { s with
    downloads := { s.downloads with
      slots := s.downloads.slots.modify slot fun s ↦ { s with notified := true } }
    tasks := s.tasks.map fun task : Task ↦ { task with pc := task.pc.wake slot } }
    |>.setPc t (.reading slot)

/-- The result of a slot. -/
def result (s : SyncSystem) (slot : Nat) : Option (Except Str PathBuf) :=
  s.downloads.slots[slot]?.bind fun s ↦ s.state.result

/-- Where reading the result leads. -/
def afterRead (s : SyncSystem) (slot : Nat) : Pc :=
  match s.result slot with
  | some (.ok path) => .claiming slot path
  | some (.error err) => .failing slot err
  | none => .sawNone slot

/-- `release`, then the removal of the shared file and of others. -/
def finish (s : SyncSystem) (t slot : Nat) (contentHash : Hash) (paths : List PathBuf)
    (result : Except Str (Option PathBuf)) : SyncSystem :=
  let (downloads, sharedTmp) := s.downloads.release contentHash slot
  { s with downloads }.setPc t (.removing (sharedTmp.toList ++ paths) result)

/-- Take a name for a temporary file. -/
def nameTmp [Blake3] (s : SyncSystem) (pid : Nat) (entry : Entry) : PathBuf :=
  tmpRecvPath s.node.folder.root pid s.nextRecvId entry

/-- A number no file on the disk has. -/
def freshInode (d : Posix.Disk) : Nat :=
  (d.inodes.keys ++ (OrdMap.values d.objects).filterMap inodeOf).foldr max 0 + 1
where
  inodeOf : Posix.Obj → Option Nat
    | .file i => some i
    | _ => none

/-- Create a file.  Temporary files are under the real path of the folder, so
their paths are real. -/
def create (s : SyncSystem) (path : PathBuf) (inode : Posix.Inode) : SyncSystem :=
  let i := freshInode s.disk
  { s.withDisk { s.disk.put path (.file i) with inodes := s.disk.inodes.insert i inode } with
    received := i :: s.received }

/-- `get_object_to_file`: the object is checked against its size and its hash. -/
def fetch [Blake3] (s : SyncSystem) (t slot : Nat) (task : Task) (tmp : PathBuf) :
    Except Str (List UInt8) → SyncSystem
  | .ok content =>
    if content.length = task.entry.size ∧ Blake3.digest content = task.contentHash then
      (s.create tmp ⟨content, 0o644, s.disk.time⟩).setPc t (.fetched slot (.ok tmp))
    else s.setPc t (.fetched slot (.error (lit "object mismatch")))
  | .error err => s.setPc t (.fetched slot (.error err))

/-- `materialize_shared_object`: a hard link, or else a copy. -/
def materialize (s : SyncSystem) (shared own : PathBuf) (weather : Weather) :
    SyncSystem × Except Str Unit :=
  match s.disk.obj shared with
  | some (.file i) =>
    if weather.canLink then (s.withDisk (s.disk.put own (.file i)), .ok ())
    else match weather.copied with
      | .ok _ => (s.create own { s.disk.inode i with mtime := s.disk.time }, .ok ())
      | .error err => (s, .error err)
  | _ => (s, .error (lit "no shared file"))

/-- Remove a temporary file. -/
def remove (s : SyncSystem) (path : PathBuf) : SyncSystem := s.withDisk (s.disk.clear path)

/-- The next step of a task, if it has one. -/
def runTask [Blake3] (s : SyncSystem) (pid t : Nat) (task : Task) (weather : Weather) :
    Option SyncSystem :=
  match task.pc with
  | .spawned => if s.hasPermit task.call then some (s.start t task) else none
  | .naming slot =>
    let tmp := s.nameTmp pid task.entry
    some ({ s with
      nextRecvId := s.nextRecvId + 1
      sharedTmpPaths := tmp :: s.sharedTmpPaths }.setPc t (.fetching slot tmp))
  | .fetching slot tmp => some (s.fetch t slot task tmp weather.fetched)
  | .fetched slot result => some (s.publish t slot result)
  | .stored slot => some (s.notify t slot)
  | .reading slot => some (s.setPc t (s.afterRead slot))
  | .sawNone slot => some (s.setPc t (.parked slot))
  | .parked _ => none
  | .failing slot err => some (s.finish t slot task.contentHash [] (.error err))
  | .claiming slot shared =>
    let (downloads, claimed) := s.downloads.claimTarget slot task.entry
    some ({ s with downloads }.setPc t (if claimed then .ownNaming slot shared else .declined slot))
  | .declined slot => some (s.finish t slot task.contentHash [] (.ok none))
  | .ownNaming slot shared =>
    let own := s.nameTmp pid task.entry
    some ({ s with nextRecvId := s.nextRecvId + 1 }.setPc t (.materializing slot shared own))
  | .materializing slot shared own =>
    let (s, result) := s.materialize shared own weather
    some (s.setPc t (.materialized slot own result))
  | .materialized slot own (.ok _) => some (s.finish t slot task.contentHash [] (.ok (some own)))
  | .materialized slot own (.error err) =>
    some (s.finish t slot task.contentHash [own] (.error err))
  | .removing [] result => some (s.setPc t (.done result))
  | .removing (path :: paths) result => some ((s.remove path).setPc t (.removing paths result))
  | .done _ | .aborted => none

/-- The entry and the file of a task that got its file. -/
def fetchedBy (s : SyncSystem) (t : Nat) : Option (Entry × Option PathBuf) :=
  s.tasks[t]?.bind fun task ↦
    match task.pc with
    | .done (.ok (some tmp)) => some (task.entry, some tmp)
    | _ => none

/-- What an action leads to, if it can happen. -/
def next [Blake3] (pid : Nat) (s : SyncSystem) : SyncAct → Option SyncSystem
  | .spawn call contentHash entry =>
    if call ∈ s.failed ∨ entry.kind ≠ .file ∨ entry.contentHash ≠ some contentHash then none
    else some { s with tasks := s.tasks ++ [⟨call, contentHash, entry, .spawned⟩] }
  | .run t weather => s.tasks[t]?.bind fun task ↦ s.runTask pid t task weather
  | .fail call => some { s with failed := call :: s.failed }
  | .abort t => s.tasks[t]?.bind fun task ↦
      if task.call ∈ s.failed ∧ task.pc.isAwait then some (s.setPc t .aborted) else none
  | .install ts =>
    some { s with node := (Proc.exec (applyRemoteEntries (ts.filterMap s.fetchedBy)) s.node).2 }

/-- Nothing is aborted. -/
def AbortsNothing (_ : SyncSystem) : SyncAct → Prop
  | .abort _ => False
  | _ => True

instance (s : SyncSystem) (act : SyncAct) : Decidable (AbortsNothing s act) :=
  match act with
  | .abort _ => isFalse id
  | .spawn .. | .run .. | .fail _ | .install _ => isTrue trivial

/-- A node on which nothing has been downloaded since it started: no file on the
disk has the name of a temporary one. -/
structure Idle (s : SyncSystem) : Prop where
  downloads_eq : s.downloads = .empty
  tasks_eq : s.tasks = []
  sharedTmpPaths_eq : s.sharedTmpPaths = []
  received_eq : s.received = []

/-- The machine of the process `pid`, held to what `P` allows. -/
def machine [Blake3] (pid : Nat) (P : SyncSystem → SyncAct → Prop) : Machine SyncSystem where
  init := Idle
  step s s' := ∃ act, P s act ∧ s.next pid act = some s'

/-- Several actions in a row, as far as `P` allows them. -/
def nexts [Blake3] (pid : Nat) (P : SyncSystem → SyncAct → Prop) [∀ s act, Decidable (P s act)]
    (s : SyncSystem) (acts : List SyncAct) : Option SyncSystem :=
  acts.foldlM (fun s act ↦ if P s act then s.next pid act else none) s

theorem reachable_nexts [Blake3] {pid : Nat} {P : SyncSystem → SyncAct → Prop}
    [∀ s act, Decidable (P s act)] {s s' : SyncSystem} {acts : List SyncAct}
    (h : (machine pid P).Reachable s) (hrun : s.nexts pid P acts = some s') :
    (machine pid P).Reachable s' := by
  induction acts generalizing s with
  | nil => exact Option.some.inj hrun ▸ h
  | cons act acts ih =>
    rw [nexts, List.foldlM_cons] at hrun
    obtain ⟨s₁, hs₁, hrest⟩ := Option.bind_eq_some_iff.mp hrun
    split at hs₁
    · next hP => exact ih (.step h ⟨act, hP, hs₁⟩) hrest
    · cases hs₁

/-- The node `A` on an empty folder, with nothing going on. -/
def idle [Blake3] : SyncSystem where
  node := Node.blank [lit "s"] (lit "A")
    (.of [([lit "s"], .dir 0o755), ([lit "s", stateDir], .dir 0o755)] [])
  downloads := .empty
  tasks := []
  failed := []
  nextRecvId := 0
  sharedTmpPaths := []
  received := []

theorem idle_idle [Blake3] : Idle idle := ⟨rfl, rfl, rfl, rfl⟩

/-- A remote file with the given content hash. -/
def remoteFile (path : String) (contentHash : Hash) : Entry :=
  ⟨lit path, .file, some contentHash, none, 0, none, ⟨1, lit "B"⟩⟩

/-- The network is down. -/
def offline : Weather := ⟨.error (lit "offline"), true, .ok ()⟩

/-- A run in which a download fails and its slot is given up. -/
def failedDownload : List SyncAct :=
  .spawn 0 zeroHash (remoteFile "a" zeroHash) :: List.replicate 8 (.run 0 offline)

end SyncSystem

end Lilsync
