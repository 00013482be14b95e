import Torrent.Session
import Torrent.Wire.Payload

/-!
# An attempt at a piece

A piece is fetched from one peer block by block.  Requests go out in order while
the peer lets us ask and fewer are open than its window allows.  Every block that
comes is laid over the buffer; what else the peer says is obeyed, and a request
of its own is passed on to be served.

`Attempt.handle` is the effect of one message.  A message that breaks the
protocol has none.
-/

namespace Torrent

/-- Where an attempt stands. -/
inductive AttemptState
  | requesting
  | awaiting
  | done
deriving DecidableEq

/-- An attempt at a piece with one peer. -/
structure Attempt where
  spec : PieceSpec
  blockSize : UInt32
  /-- The content, zero where nothing has come. -/
  buffer : Bytes
  /-- How much has been asked for. -/
  requested : UInt32
  /-- How much has come. -/
  downloaded : UInt32
  backlog : UInt32
  state : AttemptState

namespace Attempt

/-- The longest stretch a request is answered for. -/
def longestServed : UInt32 := 131072

/-- The longest stretch to ask for where nothing else is set. -/
def standardBlock : UInt32 := 16384

/-- An attempt with nothing asked for.  A block has at least one byte. -/
def start (spec : PieceSpec) (blockSize : UInt32) : Attempt where
  spec := spec
  blockSize := if blockSize = 0 then 1 else blockSize
  buffer := Bytes.zeros spec.length.toNat
  requested := 0
  downloaded := 0
  backlog := 0
  state := .requesting

/-- Whether as much has come as the piece is long. -/
def isDone (a : Attempt) : Bool := decide (a.spec.length ≤ a.downloaded)

/-- The next request, if one may go out. -/
def nextRequest? (a : Attempt) (s : Session) : Option BlockRequest :=
  if s.choked = false ∧ a.requested < a.spec.length ∧ a.backlog < s.window then
    let left := a.spec.length - a.requested
    some ⟨a.spec.index, a.requested, if a.blockSize ≤ left then a.blockSize else left⟩
  else none

/-- The attempt after a request went out. -/
def afterRequest (a : Attempt) (r : BlockRequest) : Attempt :=
  { a with backlog := a.backlog + 1, requested := a.requested + r.length }

/-- The number of requests open after one was answered. -/
def oneAnswered (backlog : UInt32) : UInt32 := if backlog = 0 then 0 else backlog - 1

/-- The effect of a message at a time: the attempt and the session afterwards, and a request that
is to be served. -/
def handle (a : Attempt) (s : Session) (now : Nat) (m : Message) :
    Except Violation (Attempt × Session × Option BlockRequest) :=
  match m.kind with
  | .choke => .ok (a, { s with choked := true }, none)
  | .unchoke => .ok (a, { s with choked := false }, none)
  | .have_ =>
    match m.haveIndex with
    | .error cause => .error cause
    | .ok index => .ok (a, s.markHave index, none)
  | .bitfield => .ok (a, { s with pieces := ⟨m.payload⟩ }, none)
  | .piece =>
    match m.copyBlock a.spec.index a.buffer with
    | .error cause => .error cause
    | .ok (count, buffer) =>
      .ok ({ a with
          buffer := buffer
          backlog := oneAnswered a.backlog
          downloaded := a.downloaded + UInt32.ofNat count },
        s.recordBlock count now, none)
  | .request =>
    match m.blockRequest with
    | .error cause => .error cause
    | .ok r => .ok (a, s, if longestServed < r.length then none else some r)
  | .keepAlive | .interested | .notInterested | .cancel | .other _ => .ok (a, s, none)

/-- How many bytes of its piece an attempt takes from a message. -/
def received (a : Attempt) (m : Message) : Nat :=
  match m.block a.spec.index a.spec.length.toNat with
  | .ok (_, bytes) => bytes.length
  | .error _ => 0

/-- Whether some bytes more than have come make more than the words hold that count them.  Then
counting them wraps, or stops where sums are checked. -/
def overflows (a : Attempt) (s : Session) (count : Nat) : Bool :=
  decide (UInt32.size ≤ a.downloaded.toNat + count) ||
    s.throughput.overflows (UInt64.ofNat count)

end Attempt

end Torrent
