import Torrent.Piece
import Torrent.Bytes.BigEndian

/-!
# Messages between peers

A message is a kind and a payload.  The payload stays a byte string: what it
spells is the matter of the payload readers.  A kind that has no use here is
kept as `MessageKind.other` with its number, so a peer that speaks extensions is
understood as far as possible.
-/

namespace Torrent

/-- The kind of a message. -/
inductive MessageKind
  | keepAlive
  | choke
  | unchoke
  | interested
  | notInterested
  | have_
  | bitfield
  | request
  | piece
  | cancel
  /-- A kind that has no use here, by its number. -/
  | other (id : UInt8)
deriving DecidableEq

namespace MessageKind

/-- The number of a kind on the wire.  A keep-alive has none. -/
def id? : MessageKind → Option UInt8
  | .keepAlive => none
  | .choke => some 0
  | .unchoke => some 1
  | .interested => some 2
  | .notInterested => some 3
  | .have_ => some 4
  | .bitfield => some 5
  | .request => some 6
  | .piece => some 7
  | .cancel => some 8
  | .other id => some id

/-- The kind with a number. -/
def ofId (id : UInt8) : MessageKind :=
  match id.toNat with
  | 0 => .choke
  | 1 => .unchoke
  | 2 => .interested
  | 3 => .notInterested
  | 4 => .have_
  | 5 => .bitfield
  | 6 => .request
  | 7 => .piece
  | 8 => .cancel
  | _ => .other id

/-- The name under which a kind is shown. -/
def name : MessageKind → String
  | .keepAlive => "KeepAlive"
  | .choke => "Choke"
  | .unchoke => "Unchoke"
  | .interested => "Interested"
  | .notInterested => "NotInterested"
  | .have_ => "Have"
  | .bitfield => "Bitfield"
  | .request => "Request"
  | .piece => "Piece"
  | .cancel => "Cancel"
  | .other id => "Other(" ++ toString id.toNat ++ ")"

/-- Every number belongs to the kind it is read as. -/
theorem id?_ofId (id : UInt8) : (ofId id).id? = some id := by
  unfold ofId
  split <;> simp only [id?, Option.some.injEq] <;> exact UInt8.toNat_inj.1 (by simp [*])

end MessageKind

/-- A message: its kind and its payload. -/
structure Message where
  kind : MessageKind
  payload : Bytes
deriving DecidableEq

namespace Message

/-- A message that only keeps the connection open. -/
def keepAlive : Message := ⟨.keepAlive, []⟩

/-- No requests will be answered from now on. -/
def choke : Message := ⟨.choke, []⟩

/-- Requests will be answered from now on. -/
def unchoke : Message := ⟨.unchoke, []⟩

/-- The sender wants pieces. -/
def interested : Message := ⟨.interested, []⟩

/-- The sender wants nothing. -/
def notInterested : Message := ⟨.notInterested, []⟩

/-- The sender has this piece now. -/
def have_ (index : PieceIndex) : Message := ⟨.have_, BigEndian.toBytes index⟩

/-- The sender has the pieces of this bitmap. -/
def bitfield (bits : Bytes) : Message := ⟨.bitfield, bits⟩

/-- A stretch of a piece, as three words. -/
def stretch (index : PieceIndex) (start length : UInt32) : Bytes :=
  BigEndian.toBytes index ++ BigEndian.toBytes start ++ BigEndian.toBytes length

/-- The sender wants this stretch of a piece. -/
def request (index : PieceIndex) (start length : UInt32) : Message :=
  ⟨.request, stretch index start length⟩

/-- The sender no longer wants this stretch of a piece. -/
def cancel (index : PieceIndex) (start length : UInt32) : Message :=
  ⟨.cancel, stretch index start length⟩

/-- A block of a piece. -/
def piece (index : PieceIndex) (start : UInt32) (block : Bytes) : Message :=
  ⟨.piece, BigEndian.toBytes index ++ BigEndian.toBytes start ++ block⟩

end Message

end Torrent
