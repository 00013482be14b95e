import Torrent.Bitfield
import Torrent.Endpoint
import Torrent.Throughput
import Torrent.Wire.Error

/-!
# What is known of a peer in a session

Whether the peer lets us ask, which pieces it has, how fast it is, and whether we
told it that we are interested.
-/

namespace Torrent

/-- The state of a session with a peer. -/
structure Session where
  endpoint : Endpoint
  /-- What it calls itself. -/
  remoteId : PeerId
  /-- Whether it does not answer requests now. -/
  choked : Bool
  /-- Whether it was told that we are interested. -/
  interestSent : Bool
  pieces : Bitfield
  throughput : Throughput

namespace Session

/-- A session that has just begun, with the peer's bitmap. -/
def opened (endpoint : Endpoint) (remoteId : PeerId) (pieces : Bitfield) (now : Nat) : Session :=
  ⟨endpoint, remoteId, true, false, pieces, .startingAt now⟩

/-- Whether the peer has a piece. -/
def hasPiece (s : Session) (index : PieceIndex) : Bool := s.pieces.has index

/-- The peer has a piece from now on.  A bitmap that is too short grows for it. -/
def markHave (s : Session) (index : PieceIndex) : Session :=
  { s with pieces := (s.pieces.growFor index).insert index }

/-- How many requests may be open. -/
def window (s : Session) : UInt32 := s.throughput.window

/-- A block of so many bytes came at a time. -/
def recordBlock (s : Session) (bytes : Nat) (now : Nat) : Session :=
  { s with throughput := s.throughput.record (UInt64.ofNat bytes) now }

end Session

end Torrent
