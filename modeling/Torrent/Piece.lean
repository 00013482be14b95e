import Torrent.Bytes.Hex
import Torrent.Bytes.Sha1

/-!
# Pieces and the names of things

A torrent is cut into pieces, each known by its number, its digest and its
length.  `InfoHash` names the torrent and `PeerId` names a peer.
-/

namespace Torrent

/-- The number of a piece, counted from zero. -/
abbrev PieceIndex := UInt32

/-- The name of a torrent: a digest both sides must agree on. -/
structure InfoHash where
  octets : Octets 20
deriving DecidableEq

/-- The lower-case hexadecimal digits of the name. -/
def InfoHash.text (h : InfoHash) : String := Hex.encode h.octets.bytes

/-- The name of a peer. -/
structure PeerId where
  octets : Octets 20
deriving DecidableEq

/-- The name whose first bytes are `front` and whose others come from `fill`.  Only twenty bytes
of `front` count. -/
def PeerId.ofFront (front fill : Bytes) : PeerId := ⟨Octets.ofFront 20 (front ++ fill)⟩

/-- What is needed to fetch and check one piece. -/
structure PieceSpec where
  index : PieceIndex
  hash : Octets 20
  length : UInt32
deriving DecidableEq

/-- Whether these bytes are the piece: the right length and the right digest. -/
def PieceSpec.verify (spec : PieceSpec) (data : Bytes) : Bool :=
  data.length == spec.length.toNat && Sha1.digest data == spec.hash

end Torrent
