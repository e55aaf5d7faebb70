import Lilsync.Group
import Lilsync.Sync.Walk

/-!
# Announcements

`message.rs`: what the nodes of a group tell one another on their own account.
-/

namespace Lilsync

/-- `TreeHint` as it is sent.  Nobody who receives it asks whether it was truncated. -/
structure SentHint extends TreeHint where
  truncated : Bool

/-- `GossipMessage`. -/
inductive GossipMessage where
  | syncState (origin : Str) (stateRoot liveRoot : Hash) (lamport stateNodes liveNodes : Nat)
      (gcWatermark : GcWatermark)
  | filesystemChanged (origin : Str) (stateRoot liveRoot : Hash) (lamport : Nat)
      (hint : Option SentHint)
  | peers (origin : Str) (members : List MemberEntry)
  | endpoints (origin : Str) (listenPort : UInt16) (endpoints : List Str) (name : Option Str)

/-- `GossipMessage::origin`. -/
def GossipMessage.origin : GossipMessage → Str
  | .syncState origin .. => origin
  | .filesystemChanged origin .. => origin
  | .peers origin _ => origin
  | .endpoints origin .. => origin

end Lilsync
