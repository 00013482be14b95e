import Torrent.Wire.Frame
import Torrent.Wire.Handshake

/-!
# Receivers

What comes over a stream comes in parts of any size.  A receiver looks at the
bytes it holds and says how many more it can take, or gives its answer.  It never
asks for more than belongs to its own answer, so what follows stays unread.

`Receiver.run` hands bytes that are there to a receiver.
-/

namespace Torrent

/-- What comes behind the last byte. -/
inductive Ending
  | closed
  | reset
  /-- Nothing ever comes. -/
  | silent
deriving DecidableEq

/-- What a receiver does with the bytes it holds. -/
inductive Need (α : Type)
  /-- It keeps these and takes up to so many more. -/
  | more (held : Bytes) (room : Nat) (pos : 0 < room)
  | done (answer : α)

/-- A reader of one thing from the front of a stream. -/
structure Receiver (α : Type) where
  next : Bytes → Need α
  /-- Why nothing comes of it if the stream ends with these bytes held. -/
  atEnd : Bytes → PeerError

namespace Receiver

/-- What becomes of the receiver that holds `held` when `available` is there to be taken, and what
of it is left. -/
def run {α : Type} (r : Receiver α) (held available : Bytes) : Need α × Bytes :=
  match r.next held with
  | .done a => (.done a, available)
  | .more held room pos =>
    if available = [] then (.more held room pos, [])
    else r.run (held ++ available.take room) (available.drop room)
termination_by available.length
decreasing_by
  have := List.length_pos_iff.2 ‹_›
  simp only [List.length_drop]
  omega

end Receiver

/-! ## The receivers of the protocol -/

/-- The receiver of a greeting that must answer ours. -/
def Handshake.receiver (ours : Handshake) : Receiver (Except PeerError Handshake) where
  next held :=
    if h : held.length < Handshake.size then .more held (Handshake.size - held.length) (by omega)
    else
      match ours.accept held with
      | .ok theirs => .done (.ok theirs)
      | .error failure => .done (.error (.handshake failure))
  atEnd held := if held = [] then .closed else .handshake (.invalidLength held.length)

namespace Frame

/-- What to do with the bytes held of a frame whose declared length may not be over a limit. -/
def next (limit : UInt32) (held : Bytes) : Need (Except PeerError Message) :=
  if h : held.length < 4 then .more held (4 - held.length) (by omega)
  else
    let declared := BigEndian.ofBytes held
    if limit < declared then .done (.error (.violation (.longFrame declared limit)))
    else if h : held.length < 4 + declared.toNat then
      .more held (4 + declared.toNat - held.length) (by omega)
    else
      match decode held with
      | .ok m => .done (.ok m)
      | .error cause => .done (.error (.violation cause))

/-- The receiver of one message. -/
def receiver (limit : UInt32) : Receiver (Except PeerError Message) where
  next := next limit
  atEnd _ := .closed

/-- The receiver of the bitmap that opens a session.  Only keep-alives may come before it. -/
def bitmapReceiver (limit : UInt32) : Receiver (Except PeerError Bytes) where
  next held :=
    match next limit held with
    | .more held room pos => .more held room pos
    | .done (.error e) => .done (.error e)
    | .done (.ok m) =>
      match m.kind with
      | .keepAlive => .more [] 4 (by decide)
      | .bitfield => .done (.ok m.payload)
      | kind => .done (.error (.violation (.noBitfield kind)))
  atEnd _ := .closed

end Frame

end Torrent
