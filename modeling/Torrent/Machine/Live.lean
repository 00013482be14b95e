import Std.Async.TCP
import Torrent.Download
import Torrent.Machine.Files

/-!
# A download on a real machine

The events of a download come here from real streams, the real clock and the
files of the machine.  What a task does next is worked out first; then the files
of the machine are changed and bytes go out accordingly; and if a file fails, the
task takes the same step again with the failure put upon it.

What goes out is handed over at once.  If it cannot be delivered, the stream of
the peer ends.
-/

namespace Torrent.Machine

open Std.Async
open Std.Net (SocketAddress IPv4Addr IPv6Addr)

/-! ## Streams -/

/-- The stream between a task and its peer. -/
structure Link where
  socket : TCP.Socket.Client
  /-- The attempt to reach the peer, until it is over. -/
  dialing : Option (AsyncTask Unit)
  /-- What comes next, while something may come. -/
  coming : Option (AsyncTask (Option ByteArray))
  /-- What is on its way out. -/
  going : List (AsyncTask Unit)

/-- The address of an endpoint. -/
def addressOf (e : Endpoint) : SocketAddress :=
  match e.address with
  | .short ⟨a, b, c, d⟩ => .v4 ⟨IPv4Addr.ofParts a b c d, e.port⟩
  | .long address _ _ =>
    let group (i : Nat) : UInt16 := address.groups.getD i 0
    .v6 ⟨IPv6Addr.ofParts (group 0) (group 1) (group 2) (group 3) (group 4) (group 5) (group 6)
      (group 7), e.port⟩

namespace Link

/-- A stream to an endpoint that is not reached yet. -/
def dial (e : Endpoint) : IO Link := do
  let socket ← TCP.Socket.Client.mk
  return ⟨socket, some (← (socket.connect (addressOf e)).toIO), none, []⟩

/-- The stream with the next bytes asked for. -/
def listen (l : Link) : IO Link :=
  return { l with dialing := none, coming := some (← (l.socket.recv? 65536).toIO) }

/-- What became of something that was begun, if it is over. -/
def result? {α : Type} (begun : AsyncTask α) : IO (Option (Except IO.Error α)) := do
  match ← begun.getState with
  | .finished => return some (← begun.block.toBaseIO)
  | _ => return none

/-- Whether something on its way out was lost, and what is still on its way. -/
def lost (l : Link) : IO (Bool × Link) :=
  l.going.foldrM (fun begun (lost, l) => do
    match ← result? begun with
    | none => return (lost, { l with going := begun :: l.going })
    | some (.ok ()) => return (lost, l)
    | some (.error _) => return (true, l)) (false, { l with going := [] })

/-- What happened to the stream of a task since the last look. -/
def poll (l : Link) (task now : Nat) : IO (List Event × Link) := do
  match l.dialing, l.coming with
  | some begun, _ =>
    match ← result? begun with
    | none => return ([], l)
    | some (.ok ()) => return ([.reached task now none], ← l.listen)
    | some (.error _) => return ([.refused task], { l with dialing := none })
  | none, some begun =>
    let (isLost, l) ← l.lost
    if isLost then return ([.ended task .reset], { l with coming := none })
    match ← result? begun with
    | none => return ([], l)
    | some (.ok (some bytes)) => return ([.arrived task bytes.data.toList], ← l.listen)
    | some (.ok none) => return ([.ended task .closed], { l with coming := none })
    | some (.error _) => return ([.ended task .reset], { l with coming := none })
  | none, none => return ([], l)

/-- Bytes handed over. -/
def hand (l : Link) (bytes : Bytes) : IO Link := do
  if bytes = [] then return l
  return { l with going := l.going ++ [← (l.socket.send ⟨bytes.toArray⟩).toIO] }

/-- The stream closed on our side. -/
def close (l : Link) : IO Unit := do discard (l.socket.shutdown.toIO)

end Link

/-! ## Tasks -/

/-- The part of a step of a task that the files of the machine see, when the tree becomes `new`. -/
def change (w : Swarm) (t : Task) (new : FileTree) : IO Unit :=
  match t.phase with
  | .inSession _ (.storing _ (.placing _ ((g, _) :: _))) => do
    makeNew w.tree new
    match (w.store.slots[g.file]?).bind fun slot => (new.find slot.path).toOption with
    | some (.file id) => discard (openFile new id)
    | _ => return
  | .inSession _ (.storing _ (.opened _ file ((g, bytes) :: _))) => writeAt new file g.start bytes
  | .inSession _ (.storing _ (.saving bitmap)) => writeAt new w.store.resume 0 bitmap
  | .inSession _ (.storing _ (.cutting n _)) => setLength new w.store.resume n
  | .inSession _ (.serving _ _ _ _) => makeNew w.tree new
  | _ => return

/-- The next effect of a task, on the machine too. -/
def advance (w : Swarm) (task : Nat) (t : Task) (now : Nat) : IO Swarm := do
  let next := w.step (.proceeded task now none)
  match ← attempt (change w t next.tree) with
  | .ok () => return next
  | .error e => return w.step (.proceeded task now (some ⟨0, e⟩))

/-- What the tasks sent handed over to their streams.  The stream of a task that is over is
closed. -/
def deliver (w : Swarm) (links : List (Option Link)) : IO (Swarm × List (Option Link)) := do
  let links ← (w.tasks.zip links).mapM fun (t, link) =>
    match link with
    | none => return none
    | some l => do
      let l ← l.hand t.sent
      match t.phase with
      | .gone _ _ => l.close; return none
      | _ => return some l
  return ({ w with tasks := w.tasks.map fun t => { t with sent := [] } }, links)

/-- The next step of every task that can take one, and whether there was any. -/
def advanceAll (w : Swarm) (now : Nat) : IO (Swarm × Bool) :=
  (List.range w.tasks.length).foldlM (fun (w, moved) task => do
    match w.tasks[task]? with
    | some t =>
      if t.canProceed now then return (← advance w task t now, true) else return (w, moved)
    | none => return (w, moved)) (w, false)

/-- What the clock and the ends of tasks bring about. -/
def upkeep (w : Swarm) (now : Nat) : Swarm :=
  let all := List.range w.tasks.length
  let w := w.run (all.map fun task => .clock task now)
  let w := w.run (all.map .joined)
  w.run (all.map .aborted ++ all.map .joined ++ [.closed none])

/-- A download carried on until it is over. -/
partial def follow (w : Swarm) (links : List (Option Link)) : IO Swarm := do
  if w.outcome.isSome then return w
  let now ← IO.monoMsNow
  let polled ← links.zipIdx.mapM fun (link, task) =>
    match link with
    | none => return ([], none)
    | some l => do
      let (events, l) ← l.poll task now
      return (events, some l)
  let events := polled.flatMap (·.1)
  let (w, moved) ← advanceAll (w.run events) now
  let (w, links) ← deliver w (polled.map (·.2))
  if !moved && events.isEmpty then IO.sleep 1
  follow (upkeep w now) links

/-- The missing pieces of a torrent fetched into a directory. -/
def fetch (peers : List PeerRecord) (d : Descriptor) (directory : List Char) (settings : Settings) :
    IO (Except TorrentError Bool) := do
  let resume := Path.join directory settings.resumeFileName.toList
  let slots := d.files.map fun file => Path.join directory file.path.toList
  let old ← treeOf (directory :: resume :: slots)
  let random := (← IO.getRandomBytes 20).data.toList
  match Download.start old peers d directory settings random (← IO.monoMsNow) with
  | (.error e, new) =>
    discard (attempt (makeNew old new))
    return .error e
  | (.ok w, _) =>
    match ← attempt (do makeNew old w.tree; discard (openFile w.tree w.store.resume)) with
    | .error e => return .error (.storage (.io e))
    | .ok () =>
      let links ← w.tasks.mapM fun t => return some (← Link.dial t.record.endpoint)
      let w ← follow w links
      return w.outcome.getD (.ok false)

end Torrent.Machine
