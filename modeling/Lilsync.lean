import Lilsync.Group.Views
import Lilsync.Group.Converge
import Lilsync.Tree.Commitment
import Lilsync.Replica.Pull
import Lilsync.State.Sound
import Lilsync.State.Ignored
import Lilsync.Daemon.Clock
import Lilsync.Sync.Orphan
import Lilsync.Sync.Wakeup
import Lilsync.Sync.Sharing
import Lilsync.Sync.Release
import Lilsync.Group.Invites
import Lilsync.Group.Removal
import Lilsync.Daemon.Activity
import Lilsync.Daemon.Reports
import Lilsync.Scan.Cache
import Lilsync.State.Reorder
import Lilsync.Sync.Listing
import Lilsync.Sync.Authentic
import Lilsync.Daemon.Overflow
import Lilsync.State.Emitted
import Lilsync.State.Batch
import Lilsync.Transport
import Lilsync.Ticket
import Lilsync.Group.Sticky
import Lilsync.Group.Atomic
import Lilsync.Rpc
import Lilsync.Rpc.Transfer
import Lilsync.Ignore.Directories
import Lilsync.State.Cleared
import Lilsync.State.Legacy
import Lilsync.State.Wrapping
import Lilsync.Sync.Transfers
import Lilsync.Daemon.Deleted
import Lilsync.Sync.Complete
import Lilsync.Replica.Settle
import Lilsync.Daemon.Hint
import Lilsync.Daemon.Announce
import Lilsync.Transport.Handshake
import Lilsync.Rpc.Client
import Lilsync.Rpc.Admission
import Lilsync.State.Confined
import Lilsync.Commands
