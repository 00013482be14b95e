import Torrent.Attempt
import Torrent.PeerSet
import Torrent.Store.Read
import Torrent.Store.Write
import Torrent.Wire.Receiver

/-!
# The task of one peer

A task reaches its peer, exchanges greetings, waits for the bitmap and then takes
pieces from the queue one after the other: it announces its interest, fetches the
piece, stores it and tells the peer.  It leaves when there is nothing more for it
to do or something fails.

`Work.claim?` is the piece that a task holds.  It holds one from the moment the
queue gives it until the piece is stored or the task gives it back.
-/

namespace Torrent

/-- Why a task leaves its peer. -/
inductive Departure
  | drained
  /-- The peer has none of the pieces that are missing, and none is held by another task. -/
  | nothingToOffer
  | failed (error : PeerError)
  | storageFailed (error : StorageError)
deriving DecidableEq

/-- What a task does in its session. -/
inductive Work
  | looking
  /-- It found none and looks again at this time. -/
  | resting (wake : Nat)
  /-- It holds a piece and has these messages to send before it asks for it. -/
  | announcing (spec : PieceSpec) (left : List Message)
  /-- It fetches a piece and holds these bytes of the next message. -/
  | fetching (attempt : Attempt) (held : Bytes) (deadline : Nat)
  /-- It reads what the peer asked for meanwhile. -/
  | serving (attempt : Attempt) (request : BlockRequest) (reading : Reading) (deadline : Nat)
  | storing (spec : PieceSpec) (writing : Writing)
  | telling (index : PieceIndex)
  | leaving (departure : Departure)

/-- The piece that a task holds. -/
def Work.claim? : Work → Option PieceSpec
  | .announcing spec _ => some spec
  | .fetching attempt _ _ => some attempt.spec
  | .serving attempt _ _ _ => some attempt.spec
  | .storing spec _ => some spec
  | .looking | .resting _ | .telling _ | .leaving _ => none

/-- How a task ended. -/
inductive TaskEnd
  | finished
  | storageFailed (error : StorageError)
  | cancelled

/-- How far a task is. -/
inductive Phase
  | dialing (deadline : Nat)
  /-- It waits for the greeting and holds these bytes of it. -/
  | greeting (held : Bytes) (deadline : Nat)
  /-- It was greeted at this time, waits for the bitmap and holds these bytes of the next
  message. -/
  | opening (remoteId : PeerId) (greeted : Nat) (held : Bytes) (deadline : Nat)
  | inSession (session : Session) (work : Work)
  /-- It is over; `joined` says whether that was noticed. -/
  | gone (result : TaskEnd) (joined : Bool)

/-- The task of one peer. -/
structure Task where
  record : PeerRecord
  phase : Phase
  /-- What came in and was not read yet. -/
  inbox : Bytes
  /-- How the incoming half ended, if it did. -/
  ending : Option Ending
  sent : Bytes

namespace Task

/-- A task that sets out to reach its peer. -/
def start (record : PeerRecord) (deadline : Nat) : Task := ⟨record, .dialing deadline, [], none, []⟩

/-- The piece that a task holds. -/
def claim? (t : Task) : Option PieceSpec :=
  match t.phase with
  | .inSession _ work => work.claim?
  | _ => none

/-- Bytes sent, of which a fault lets only a part through. -/
def send (t : Task) (bytes : Bytes) (fault : Option Fault) : Except PeerError Unit × Task :=
  match fault with
  | none => (.ok (), { t with sent := t.sent ++ bytes })
  | some fault => (.error (.io fault.error), { t with sent := t.sent ++ bytes.take fault.done })

/-- A receiver reads what came in.  It has its answer, or holds bytes, or the stream ended. -/
def receive {α : Type} (t : Task) (r : Receiver (Except PeerError α)) (held : Bytes) :
    Except PeerError (Bytes ⊕ α) × Task :=
  match r.run held t.inbox with
  | (.done (.ok a), left) => (.ok (.inr a), { t with inbox := left })
  | (.done (.error e), left) => (.error e, { t with inbox := left })
  | (.more held _ _, _) =>
    let t := { t with inbox := [] }
    match t.ending with
    | none => (.ok (.inl held), t)
    | some .reset => (.error (.io .reset), t)
    | some _ => (.error (r.atEnd held), t)

/-- The deadline of what a task does, and the stage it belongs to. -/
def deadline? (t : Task) : Option (Nat × Stage) :=
  match t.phase with
  | .dialing d => some (d, .connect)
  | .greeting _ d => some (d, .handshake)
  | .opening _ _ _ d => some (d, .bitfield)
  | .inSession _ (.fetching _ _ d) => some (d, .piece)
  | .inSession _ (.serving _ _ _ d) => some (d, .piece)
  | _ => none

/-- Whether a task can go on without anything from outside. -/
def canProceed (t : Task) (now : Nat) : Bool :=
  let hasInput := !t.inbox.isEmpty || t.ending.isSome
  match t.phase with
  | .dialing _ | .gone _ _ => false
  | .greeting _ _ | .opening _ _ _ _ => hasInput
  | .inSession _ (.resting wake) => decide (wake ≤ now)
  | .inSession s (.fetching a _ _) => a.isDone || (a.nextRequest? s).isSome || hasInput
  | .inSession _ _ => true

end Task

end Torrent
