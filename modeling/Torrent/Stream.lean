import Torrent.Wire.Receiver

/-!
# Streams in time

A stream brings bytes in parts and with pauses between them, and takes bytes in.
Time is counted in milliseconds and passes only while a reader waits.  A pause
begins when a reader reaches it and goes on when that reader gives up.

`Stream.receive` lets a receiver read until it has its answer, the stream ends or
a deadline passes.  What is due at the deadline itself is still in time.  The
bytes that a receiver held when it gave up are lost.
-/

namespace Torrent

/-- What a stream brings next. -/
inductive Arrival
  | bytes (b : Bytes)
  | pause (span : Nat)
deriving DecidableEq

/-- A stream, seen from one side. -/
structure Stream where
  arrivals : List Arrival
  /-- What comes behind that. -/
  ending : Ending
  /-- When the pause in front is over, once a reader has reached it. -/
  due : Option Nat
  now : Nat
  sent : Bytes
  /-- How many bytes may go out in all, if there is an end to it. -/
  capacity : Option Nat
  /-- How many bytes are taken at a time, if there is a bound. -/
  perWrite : Option Nat
  shut : Bool

/-- What becomes of reading. -/
inductive Outcome (α : Type)
  | got (answer : α)
  | failed (error : PeerError)
  | late
  | never

namespace Stream

/-- A stream at time zero. -/
def start (arrivals : List Arrival) (ending : Ending) (capacity perWrite : Option Nat) : Stream :=
  ⟨arrivals, ending, none, 0, [], capacity, perWrite, false⟩

/-- The stream with more to come, and another end. -/
def feed (s : Stream) (arrivals : List Arrival) (ending : Ending) : Stream :=
  { s with arrivals := s.arrivals ++ arrivals, ending := ending }

/-- The bytes still to come in. -/
def incoming (s : Stream) : Bytes :=
  s.arrivals.flatMap fun
    | .bytes b => b
    | .pause _ => []

/-! ## Reading -/

/-- What reading leaves of a stream. -/
structure Left where
  arrivals : List Arrival
  due : Option Nat
  now : Nat

/-- The arrivals with bytes put back in front. -/
def putBack (b : Bytes) (arrivals : List Arrival) : List Arrival :=
  if b = [] then arrivals else .bytes b :: arrivals

/-- Reading behind the last arrival. -/
def receiveAtEnd {α : Type} (r : Receiver α) (ending : Ending) (deadline : Option Nat)
    (held : Bytes) (now : Nat) : Outcome α × Left :=
  match r.next held with
  | .done a => (.got a, ⟨[], none, now⟩)
  | .more held _ _ =>
    match ending with
    | .closed => (.failed (r.atEnd held), ⟨[], none, now⟩)
    | .reset => (.failed (.io .reset), ⟨[], none, now⟩)
    | .silent =>
      match deadline with
      | some d => (.late, ⟨[], none, max now d⟩)
      | none => (.never, ⟨[], none, now⟩)

/-- Whether a time is past a deadline. -/
def isPast (deadline : Option Nat) (time : Nat) : Bool :=
  match deadline with
  | some d => decide (d < time)
  | none => false

/-- Reading with bytes held, at a time, before a pause that may have begun. -/
def receiveFrom {α : Type} (r : Receiver α) (ending : Ending) (deadline : Option Nat) :
    List Arrival → Bytes → Nat → Option Nat → Outcome α × Left
  | [], held, now, _ => receiveAtEnd r ending deadline held now
  | .bytes b :: rest, held, now, due =>
    match r.run held b with
    | (.done a, left) => (.got a, ⟨putBack left rest, due, now⟩)
    | (.more held _ _, _) => receiveFrom r ending deadline rest held now due
  | .pause span :: rest, held, now, due =>
    match r.next held with
    | .done a => (.got a, ⟨.pause span :: rest, due, now⟩)
    | .more held _ _ =>
      let goesOn := due.getD (now + span)
      if isPast deadline goesOn then
        (.late, ⟨.pause span :: rest, some goesOn, max now (deadline.getD now)⟩)
      else receiveFrom r ending deadline rest held (max now goesOn) none

/-- A receiver reads until it has its answer, the stream ends or the deadline passes. -/
def receive {α : Type} (s : Stream) (r : Receiver α) (deadline : Option Nat) : Outcome α × Stream :=
  let (outcome, left) := receiveFrom r s.ending deadline s.arrivals [] s.now s.due
  (outcome, { s with arrivals := left.arrivals, due := left.due, now := left.now })

/-! ## Writing -/

/-- How many of `n` bytes the stream takes. -/
def accepts (s : Stream) (n : Nat) : Nat :=
  if s.shut then 0
  else if s.perWrite = some 0 then 0
  else
    match s.capacity with
    | none => n
    | some total => min n (total - s.sent.length)

/-- How the stream refuses what it does not take.  One that takes no bytes at a time accepts every
write and writes nothing of it. -/
def refusal (s : Stream) : IoError :=
  if s.shut then .brokenPipe else if s.perWrite = some 0 then .writeZero else .brokenPipe

/-- Bytes written, as far as the stream takes them, and whether it took all. -/
def write (s : Stream) (b : Bytes) : Bool × Stream :=
  let n := s.accepts b.length
  (decide (b.length ≤ n), { s with sent := s.sent ++ b.take n })

/-- Our half closed. -/
def shutdown (s : Stream) : Stream := { s with shut := true }

end Stream

end Torrent
