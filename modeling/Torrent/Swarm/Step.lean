import Torrent.Swarm.Basic

/-!
# The steps of a download

The tasks of a download take turns in any order, and peers and files do what they
like.  So a download is described by what happens: an `Event` is something from
outside or the next effect of one task, and `Swarm.step` is what comes of it.  An
event that cannot happen changes nothing.

A task that fails gives its piece back in the same step.  A failure of the peer
takes the peer out of the set and touches no other task; a failure of the store
is noticed when the task is joined.  From then on no task goes on, and each is
stopped where it stands.
-/

namespace Torrent

/-- Something that happens to a download. -/
inductive Event
  | refused (task : Nat)
  | reached (task : Nat) (now : Nat) (fault : Option Fault)
  | arrived (task : Nat) (bytes : Bytes)
  | ended (task : Nat) (ending : Ending)
  /-- A task goes on with its next effect. -/
  | proceeded (task : Nat) (now : Nat) (fault : Option Fault)
  /-- The clock is looked at for a task. -/
  | clock (task : Nat) (now : Nat)
  | aborted (task : Nat)
  | joined (task : Nat)
  /-- The store is closed behind the last task. -/
  | closed (fault : Option Fault)

/-! ## One task -/

/-- What a step of a task does to what is shared and to the task. -/
abbrev Moved := Shared × Task

namespace Shared

/-- The task of a peer that was never in a session is over. -/
def lose (w : Shared) (t : Task) : Moved :=
  ({ w with peers := (w.peers.remove t.record.endpoint).2 },
    { t with phase := .gone .finished false })

/-- The shared state with the piece of a task back in the queue. -/
def giveBack (w : Shared) (claim : Option PieceSpec) : Shared :=
  match claim with
  | none => w
  | some spec => { w with queue := w.queue.giveBack spec }

/-- A task leaves its session.  The piece it holds goes back. -/
def leave (w : Shared) (t : Task) (s : Session) (d : Departure) : Moved :=
  (w.giveBack t.claim?, { t with phase := .inSession s (.leaving d) })

/-- A task goes on with other work in its session. -/
def go (w : Shared) (t : Task) (s : Session) (work : Work) : Moved :=
  (w, { t with phase := .inSession s work })

/-- The peer is reached: our greeting goes out. -/
def greet (w : Shared) (t : Task) (now : Nat) (fault : Option Fault) : Moved :=
  let ours := Handshake.ours w.descriptor.infoHash w.localId
  match t.send ours.encode fault with
  | (.error _, t) => w.lose t
  | (.ok (), t) => (w, { t with phase := .greeting [] (now + w.settings.handshakeTimeout) })

/-- The greeting of the peer is read as far as it came. -/
def readGreeting (w : Shared) (t : Task) (held : Bytes) (deadline now : Nat) : Moved :=
  let ours := Handshake.ours w.descriptor.infoHash w.localId
  match t.receive ours.receiver held with
  | (.error _, t) => w.lose t
  | (.ok (.inl held), t) => (w, { t with phase := .greeting held deadline })
  | (.ok (.inr theirs), t) =>
    (w, { t with phase := .opening theirs.peerId now [] (now + w.settings.bitfieldTimeout) })

/-- The bitmap of the peer is read as far as it came.  The throughput is measured from the greeting
on. -/
def readBitmap (w : Shared) (t : Task) (remoteId : PeerId) (greeted : Nat) (held : Bytes)
    (deadline : Nat) : Moved :=
  match t.receive (Frame.bitmapReceiver w.settings.maxMessageLength) held with
  | (.error _, t) => w.lose t
  | (.ok (.inl held), t) => (w, { t with phase := .opening remoteId greeted held deadline })
  | (.ok (.inr bits), t) =>
    w.go t (.opened t.record.endpoint remoteId ⟨bits⟩ (greeted * 1000000)) .looking

/-- A task looks for a piece that its peer has. -/
def look (w : Shared) (t : Task) (s : Session) (now : Nat) : Moved :=
  match w.queue.claim fun spec => s.hasPiece spec.index with
  | (.piece spec, queue) =>
    let left := if s.interestSent then [] else [Message.unchoke, Message.interested]
    go { w with queue := queue } t s (.announcing spec left)
  | (.wait, _) => w.go t s (.resting (now + w.settings.retryPause))
  | (.noMatch, _) => w.leave t s .nothingToOffer
  | (.drained, _) => w.leave t s .drained

/-- A task announces its interest, and then sets out to fetch its piece. -/
def announce (w : Shared) (t : Task) (s : Session) (spec : PieceSpec) (left : List Message)
    (now : Nat) (fault : Option Fault) : Moved :=
  match left with
  | [] =>
    w.go t { s with interestSent := true }
      (.fetching (.start spec w.settings.blockSize) [] (now + w.settings.pieceTimeout))
  | m :: rest =>
    match t.send (Frame.encode m) fault with
    | (.error e, t) => w.leave t s (.failed e)
    | (.ok (), t) => w.go t s (.announcing spec rest)

/-- One message is obeyed by an attempt. -/
def obey (w : Shared) (t : Task) (s : Session) (a : Attempt) (m : Message) (deadline now : Nat) :
    Moved :=
  match a.handle s (now * 1000000) m with
  | .error cause => w.leave t s (.failed (.violation cause))
  | .ok (a, s, none) => w.go t s (.fetching { a with state := .requesting } [] deadline)
  | .ok (a, s, some r) =>
    w.go t s (.serving { a with state := .requesting } r
      (w.store.read r.index r.start.toNat r.length.toNat) deadline)

/-- A task asks for a block or reads a message. -/
def fetch (w : Shared) (t : Task) (s : Session) (a : Attempt) (held : Bytes) (deadline now : Nat)
    (fault : Option Fault) : Moved :=
  if a.isDone then
    if a.spec.verify a.buffer then
      w.go t s (.storing a.spec (w.store.write a.spec.index a.buffer))
    else w.leave t s (.failed (.violation (.badHash a.spec.index)))
  else
    match if a.state = .requesting then a.nextRequest? s else none with
    | some r =>
      match t.send (Frame.encode (.request r.index r.start r.length)) fault with
      | (.error e, t) => w.leave t s (.failed e)
      | (.ok (), t) => w.go t s (.fetching (a.afterRequest r) held deadline)
    | none =>
      let a := { a with state := .awaiting }
      match t.receive (Frame.receiver w.settings.maxMessageLength) held with
      | (.error e, t) => w.leave t s (.failed e)
      | (.ok (.inl held), t) => w.go t s (.fetching a held deadline)
      | (.ok (.inr m), t) => w.obey t s a m deadline now

/-- A task reads what the peer asked for, and sends it if it is there. -/
def serve (w : Shared) (t : Task) (s : Session) (a : Attempt) (r : BlockRequest) (reading : Reading)
    (deadline : Nat) (fault : Option Fault) : Moved :=
  match reading with
  | .finished none => w.go t s (.fetching a [] deadline)
  | .finished (some block) =>
    match t.send (Frame.encode (.piece r.index r.start block)) fault with
    | (.error e, t) => w.leave t s (.failed e)
    | (.ok (), t) => w.go t s (.fetching a [] deadline)
  | reading =>
    let (reading, store, tree) := reading.step w.store w.tree
    go { w with store := store, tree := tree } t s (.serving a r reading deadline)

/-- A task stores its piece.  A piece that is stored is complete. -/
def put (w : Shared) (t : Task) (s : Session) (spec : PieceSpec) (writing : Writing)
    (fault : Option Fault) : Moved :=
  match writing with
  | .finished (.error e) => w.leave t s (.storageFailed e)
  | .finished (.ok ()) =>
    let w := { w with queue := w.queue.complete spec, completed := w.completed + 1 }
    w.go t s (.telling spec.index)
  | writing =>
    let (writing, store, tree) := writing.step fault w.store w.tree
    go { w with store := store, tree := tree } t s (.storing spec writing)

/-- A task tells its peer of a piece. -/
def tell (w : Shared) (t : Task) (s : Session) (index : PieceIndex) (fault : Option Fault) :
    Moved :=
  match t.send (Frame.encode (.have_ index)) fault with
  | (.error e, t) => w.leave t s (.failed e)
  | (.ok (), t) => w.go t s .looking

/-- A task is over.  A peer that failed or has nothing leaves the set. -/
def depart (w : Shared) (t : Task) (d : Departure) : Moved :=
  match d with
  | .drained => (w, { t with phase := .gone .finished false })
  | .nothingToOffer | .failed _ => w.lose t
  | .storageFailed e => (w, { t with phase := .gone (.storageFailed e) false })

/-- The next effect of a task. -/
def proceed (w : Shared) (t : Task) (now : Nat) (fault : Option Fault) : Moved :=
  match t.phase with
  | .dialing _ | .gone _ _ => (w, t)
  | .greeting held deadline => w.readGreeting t held deadline now
  | .opening remoteId greeted held deadline => w.readBitmap t remoteId greeted held deadline
  | .inSession s work =>
    match work with
    | .looking => w.look t s now
    | .resting wake => if wake ≤ now then w.go t s .looking else (w, t)
    | .announcing spec left => w.announce t s spec left now fault
    | .fetching a held deadline => w.fetch t s a held deadline now fault
    | .serving a r reading deadline => w.serve t s a r reading deadline fault
    | .storing spec writing => w.put t s spec writing fault
    | .telling index => w.tell t s index fault
    | .leaving d => w.depart t d

/-- The deadline of a task, if it has passed. -/
def expire (w : Shared) (t : Task) (now : Nat) : Moved :=
  match t.deadline? with
  | none => (w, t)
  | some (deadline, stage) =>
    if now < deadline then (w, t)
    else
      match t.phase with
      | .inSession s _ => w.leave t s (.failed (.timeout stage))
      | _ => w.lose t

/-- A task stopped where it is.  It gives back its piece and the resume file. -/
def abort (w : Shared) (t : Task) : Moved :=
  let stopped := { t with phase := .gone .cancelled false }
  match t.phase with
  | .gone _ _ => (w, t)
  | .inSession _ (.storing spec writing) =>
    (giveBack { w with store := writing.giveUp w.store } (some spec), stopped)
  | _ => (w.giveBack t.claim?, stopped)

end Shared

/-! ## All tasks -/

namespace Swarm

/-- A task moved. -/
def move (w : Swarm) (k : Nat) (f : Shared → Task → Moved) : Swarm :=
  match w.tasks[k]? with
  | none => w
  | some t =>
    let (shared, t) := f w.toShared t
    { w with toShared := shared, tasks := w.tasks.set k t }

/-- A task moved, unless a failure of the store was noticed: then all tasks are to stop, and none
goes on. -/
def advance (w : Swarm) (k : Nat) (f : Shared → Task → Moved) : Swarm :=
  if w.fatal.isSome then w else w.move k f

/-- Whether the end of every task was noticed. -/
def allJoined (w : Swarm) : Bool :=
  w.tasks.all fun t =>
    match t.phase with
    | .gone _ joined => joined
    | _ => false

/-- The end of a task noticed.  The first failure of the store counts. -/
def join (w : Swarm) (k : Nat) : Swarm :=
  match w.tasks[k]? with
  | none => w
  | some t =>
    match t.phase with
    | .gone result false =>
      let w := { w with tasks := w.tasks.set k { t with phase := .gone result true } }
      match result with
      | .storageFailed e => { w with fatal := some (w.fatal.getD e) }
      | _ => w
    | _ => w

/-- The download is over: the store is closed, and the result is a failure of the store, or whether
every piece is complete. -/
def finish (w : Swarm) (fault : Option Fault) : Swarm :=
  let (closed, w) := w.closeStore fault
  let result : Except TorrentError Bool :=
    match w.fatal, closed with
    | some e, _ => .error (.storage e)
    | none, .error e => .error e
    | none, .ok () => .ok (w.completed == w.descriptor.pieceCount)
  { w with outcome := some result }

/-- What comes of an event. -/
def step (w : Swarm) : Event → Swarm
  | .refused k =>
    w.advance k fun w t =>
      match t.phase with
      | .dialing _ => w.lose t
      | _ => (w, t)
  | .reached k now fault =>
    w.advance k fun w t =>
      match t.phase with
      | .dialing _ => w.greet t now fault
      | _ => (w, t)
  | .arrived k bytes =>
    w.move k fun w t =>
      (w, if t.ending.isSome then t else { t with inbox := t.inbox ++ bytes })
  | .ended k ending => w.move k fun w t => (w, { t with ending := some (t.ending.getD ending) })
  | .proceeded k now fault => w.advance k fun w t => w.proceed t now fault
  | .clock k now => w.advance k fun w t => w.expire t now
  | .aborted k => if w.fatal.isSome then w.move k Shared.abort else w
  | .joined k => w.join k
  | .closed fault =>
    if w.tasks ≠ [] ∧ w.allJoined ∧ w.outcome.isNone then w.finish fault else w

/-- What comes of a row of events. -/
def run (w : Swarm) (events : List Event) : Swarm := events.foldl step w

/-- The events of a download whose peers cannot be reached. -/
def deserted (w : Swarm) : List Event :=
  (List.range w.tasks.length).flatMap (fun k => [.refused k, .joined k]) ++
    [.closed none]

end Swarm

end Torrent
