import Torrent.Settings
import Torrent.Swarm.Task
import Torrent.WorkQueue

/-!
# A download from many peers

A swarm has one task for each peer.  The tasks share the queue of missing pieces,
the store, the set of peers and the number of pieces that are complete.

`Swarm.seed` queues exactly the pieces that the store does not have.  `stats`
tells how far the download is.
-/

namespace Torrent

/-- What the tasks of a download share. -/
structure Shared where
  descriptor : Descriptor
  settings : Settings
  localId : PeerId
  store : Store
  tree : FileTree
  peers : PeerSet
  queue : WorkQueue
  /-- How many pieces are complete. -/
  completed : Nat

/-- A download: what is shared, the tasks, and what came of it. -/
structure Swarm extends Shared where
  tasks : List Task
  fatal : Option StorageError
  /-- The result, once there is one. -/
  outcome : Option (Except TorrentError Bool)

/-- How far a download is. -/
structure SwarmStats where
  completed : Nat
  total : Nat
  peers : Nat
  queued : Nat
deriving DecidableEq

namespace Swarm

/-- The pieces that a store does not have, in order. -/
def missing (d : Descriptor) (s : Store) : List PieceSpec :=
  ((List.range (d.pieceCount % UInt32.size)).filter fun i => !s.hasPiece (UInt32.ofNat i)).filterMap
    fun i => d.piece? (UInt32.ofNat i)

/-- A download that has not begun: the missing pieces are queued. -/
def seed (d : Descriptor) (s : Store) (t : FileTree) (peers : PeerSet) (settings : Settings)
    (localId : PeerId) : Swarm :=
  let queue := WorkQueue.ofPieces (missing d s)
  { descriptor := d
    settings := settings
    localId := localId
    store := s
    tree := t
    peers := peers
    queue := queue
    completed := d.pieceCount - queue.pending.length
    tasks := []
    fatal := none
    outcome := none }

/-- How far the download is. -/
def stats (w : Swarm) : SwarmStats :=
  ⟨w.completed, w.descriptor.pieceCount, w.peers.size, w.queue.pending.length⟩

/-- The store closed; a fault may keep it from writing all out. -/
def closeStore (w : Swarm) (fault : Option Fault) : Except TorrentError Unit × Swarm :=
  ((match fault with
    | none => .ok ()
    | some fault => .error (.storage (.io fault.error))), { w with store := w.store.close })

/-- The download begun: it is over at once when nothing is missing or there is nobody to ask, and
else every peer gets a task. -/
def begin_ (w : Swarm) (now : Nat) (fault : Option Fault) : Swarm :=
  if w.queue.isDrained then
    match w.closeStore fault with
    | (.ok (), w) => { w with outcome := some (.ok true) }
    | (.error e, w) => { w with outcome := some (.error e) }
  else if w.peers.isEmpty then { w with outcome := some (.error .noPeers) }
  else
    { w with tasks := w.peers.members.map fun r => Task.start r (now + w.settings.connectTimeout) }

end Swarm

end Torrent
