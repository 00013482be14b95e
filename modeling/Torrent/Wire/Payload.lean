import Torrent.Wire.Error

/-!
# Payloads

What the payload of a message spells.  A payload of the wrong size is refused.

`Message.copyBlock` lays a block over the buffer of its piece.  It asks for the
kind first, then for the two words, then for the number of the piece and last
for the room; whenever it refuses, the buffer stays as it was.
-/

namespace Torrent

/-- A stretch of a piece that somebody asks for. -/
structure BlockRequest where
  index : PieceIndex
  start : UInt32
  length : UInt32
deriving DecidableEq

namespace Message

/-- The piece that an announcement names. -/
def haveIndex (m : Message) : Except Violation PieceIndex :=
  if m.kind ≠ .have_ then .error (.wrongKind .have_ m.kind)
  else if m.payload.length ≠ 4 then .error (.haveSize m.payload.length)
  else .ok (BigEndian.ofBytes m.payload)

/-- The stretch that a request, or its withdrawal, names. -/
def blockRequest (m : Message) : Except Violation BlockRequest :=
  if m.kind ≠ .request ∧ m.kind ≠ .cancel then .error (.noRequest m.kind)
  else if m.payload.length ≠ 12 then .error (.requestSize m.kind m.payload.length)
  else .ok ⟨BigEndian.ofBytes m.payload, BigEndian.ofBytes (m.payload.drop 4),
    BigEndian.ofBytes (m.payload.drop 8)⟩

/-- The position and the bytes of a block of the wanted piece that fits a buffer of `size` bytes. -/
def block (m : Message) (wanted : PieceIndex) (size : Nat) : Except Violation (Nat × Bytes) :=
  if m.kind ≠ .piece then .error (.wrongKind .piece m.kind)
  else if m.payload.length < 8 then .error (.pieceSize m.payload.length)
  else
    let index := BigEndian.ofBytes m.payload
    let start := (BigEndian.ofBytes (m.payload.drop 4)).toNat
    let bytes := m.payload.drop 8
    if index ≠ wanted then .error (.wrongPiece wanted index)
    else if size < start + bytes.length then .error (.overrun start bytes.length size)
    else .ok (start, bytes)

/-- The number of bytes copied and the buffer with the block laid over it. -/
def copyBlock (m : Message) (wanted : PieceIndex) (buffer : Bytes) :
    Except Violation (Nat × Bytes) :=
  match m.block wanted buffer.length with
  | .error cause => .error cause
  | .ok (start, bytes) => .ok (bytes.length, buffer.overlay start bytes)

end Message

end Torrent
