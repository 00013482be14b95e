import Torrent.Attempt
import Torrent.Stream

/-!
# A session over a stream

A connection is opened with greetings on both sides and the bitmap of the peer,
each under a deadline.  Then messages are read and written, and pieces fetched.

Requests of the peer are served from `serve`, which gives a stretch of a piece if
it is there.
-/

namespace Torrent

/-- A session and the stream it runs over. -/
structure Connection where
  session : Session
  stream : Stream
  limit : UInt32

/-- What a serving store answers to a request. -/
abbrev Serve := BlockRequest → Option Bytes

/-- What a message meets when it is obeyed. -/
structure Moment where
  serve : Serve
  /-- What the stopwatch of the session shows. -/
  stopwatch : Nat

/-- What becomes of something that may fail by the peer's fault, or never end. -/
inductive Result (α : Type)
  | ok (a : α)
  | error (e : PeerError)
  | never

namespace Result

/-- The result of reading under a deadline that belongs to a stage. -/
def ofOutcome {α : Type} (stage : Stage) : Outcome (Except PeerError α) → Result α
  | .got (.ok a) => .ok a
  | .got (.error e) => .error e
  | .failed e => .error e
  | .late => .error (.timeout stage)
  | .never => .never

end Result

namespace Stream

/-- Greetings exchanged: ours goes out, and one that answers it comes in. -/
def exchange (s : Stream) (ours : Handshake) (deadline : Option Nat) : Result Handshake × Stream :=
  match s.write ours.encode with
  | (false, s) => (.error (.io s.refusal), s)
  | (true, s) =>
    let (outcome, s) := s.receive ours.receiver deadline
    (.ofOutcome .handshake outcome, s)

end Stream

namespace Connection

/-- A connection opened over a stream: greetings until `handshakeSpan` is over, and then the bitmap
of the peer until `bitfieldSpan` is over, however many keep-alives come before it. -/
def establish (s : Stream) (endpoint : Endpoint) (ours : Handshake)
    (handshakeSpan bitfieldSpan : Nat) (limit : UInt32) : Result Connection × Stream :=
  match s.exchange ours (some (s.now + handshakeSpan)) with
  | (.error e, s) => (.error e, s)
  | (.never, s) => (.never, s)
  | (.ok theirs, s) =>
    let (outcome, s) := s.receive (Frame.bitmapReceiver limit) (some (s.now + bitfieldSpan))
    match Result.ofOutcome .bitfield outcome with
    | .ok bits => (.ok ⟨.opened endpoint theirs.peerId ⟨bits⟩ 0, s, limit⟩, s)
    | .error e => (.error e, s)
    | .never => (.never, s)

/-- The next message, until a deadline if there is one. -/
def read (c : Connection) (deadline : Option Nat) : Result Message × Connection :=
  let (outcome, s) := c.stream.receive (Frame.receiver c.limit) deadline
  (.ofOutcome .message outcome, { c with stream := s })

/-- A message written. -/
def send (c : Connection) (m : Message) : Except PeerError Unit × Connection :=
  match c.stream.write (Frame.encode m) with
  | (true, s) => (.ok (), { c with stream := s })
  | (false, s) => (.error (.io s.refusal), { c with stream := s })

/-- The peer is told, once, that it may ask and that we are interested. -/
def announce (c : Connection) : Except PeerError Unit × Connection :=
  if c.session.interestSent then (.ok (), c)
  else
    match c.send .unchoke with
    | (.error e, c) => (.error e, c)
    | (.ok (), c) =>
      match c.send .interested with
      | (.error e, c) => (.error e, c)
      | (.ok (), c) => (.ok (), { c with session := { c.session with interestSent := true } })

/-- The stream closed on our side. -/
def shutdown (c : Connection) : Connection := { c with stream := c.stream.shutdown }

/-- A message obeyed by an attempt, at the reading of a stopwatch, and the peer's request served. -/
def handle (c : Connection) (a : Attempt) (serve : Serve) (stopwatch : Nat) (m : Message) :
    Except PeerError Attempt × Connection :=
  match a.handle c.session stopwatch m with
  | .error cause => (.error (.violation cause), c)
  | .ok (a, session, request) =>
    let c := { c with session := session }
    match request.bind fun r => (serve r).map fun block => Message.piece r.index r.start block with
    | none => (.ok a, c)
    | some reply =>
      match c.send reply with
      | (.error e, c) => (.error e, c)
      | (.ok (), c) => (.ok a, c)

/-- Requests written while one may go out, at most `n` of them. -/
def requestBlocks (c : Connection) (a : Attempt) : Nat → Except PeerError Attempt × Connection
  | 0 => (.ok a, c)
  | n + 1 =>
    match a.nextRequest? c.session with
    | none => (.ok a, c)
    | some r =>
      match c.send (.request r.index r.start r.length) with
      | (.error e, c) => (.error e, c)
      | (.ok (), c) => requestBlocks c (a.afterRequest r) n

/-- The piece fetched: requests go out and one message is obeyed, in turn, until all has come.  At
most `n` messages are read, and the first of them meets the moment with number `k`. -/
def fetchWithin (c : Connection) (moments : Nat → Moment) :
    (n k : Nat) → Attempt → Result Bytes × Connection
  | n, k, a =>
    if a.isDone then (.ok a.buffer, c)
    else
      match c.requestBlocks { a with state := .requesting } a.spec.length.toNat with
      | (.error e, c) => (.error e, c)
      | (.ok a, c) =>
        match n with
        | 0 => (.never, c)
        | n + 1 =>
          match c.read none with
          | (.error e, c) => (.error e, c)
          | (.never, c) => (.never, c)
          | (.ok m, c) =>
            let moment := moments k
            match c.handle { a with state := .awaiting } moment.serve moment.stopwatch m with
            | (.error e, c) => (.error e, c)
            | (.ok a, c) => fetchWithin c moments n (k + 1) a

/-- The piece fetched, while every message meets its moment.  Every message takes bytes of the
stream, so it has no more messages than bytes. -/
def fetch (c : Connection) (moments : Nat → Moment) (a : Attempt) : Result Bytes × Connection :=
  c.fetchWithin moments (c.stream.incoming.length + 1) 0 a

/-- The piece fetched, while the store stays as it is and the stopwatch stands still. -/
def download (c : Connection) (serve : Serve) (stopwatch : Nat) (a : Attempt) :
    Result Bytes × Connection :=
  c.fetch (fun _ => ⟨serve, stopwatch⟩) a

end Connection

end Torrent
