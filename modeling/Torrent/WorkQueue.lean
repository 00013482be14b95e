import Torrent.Piece

/-!
# The queue of missing pieces

Whoever is ready takes the first piece it can use.  A claimed piece is out of the
queue until its holder lets go of it.  Then it goes to the back, unless the holder
has settled it before (`ClaimedPiece.drop`).  Because a held piece may come back, a
caller that finds nothing is told to wait as long as any piece is held.

`Worksite` keeps the holders beside the queue, each under a name, and the pieces
that were completed.
-/

namespace Torrent

/-- The pieces waiting, first the next, and the number of pieces held. -/
structure WorkQueue where
  pending : List PieceSpec
  inFlight : Nat
deriving DecidableEq

/-- What a caller gets from the queue. -/
inductive Claim
  | piece (spec : PieceSpec)
  /-- No piece suits the caller, and none is held that could come back. -/
  | noMatch
  /-- No piece suits the caller, but a held one may come back. -/
  | wait
  /-- Nothing waits and nothing is held. -/
  | drained
deriving DecidableEq

namespace WorkQueue

/-- The queue of these pieces. -/
def ofPieces (pieces : List PieceSpec) : WorkQueue := ⟨pieces, 0⟩

/-- Whether nothing waits and nothing is held. -/
def isDrained (q : WorkQueue) : Bool := q.pending.isEmpty && q.inFlight == 0

/-- What a caller is told that finds no piece. -/
def idle (q : WorkQueue) : Claim :=
  if q.inFlight ≠ 0 then .wait else if q.pending.isEmpty then .drained else .noMatch

/-- The first waiting piece that suits the caller, and the queue without it. -/
def claim (q : WorkQueue) (suits : PieceSpec → Bool) : Claim × WorkQueue :=
  match q.pending.find? suits with
  | none => (q.idle, q)
  | some spec => (.piece spec, ⟨q.pending.eraseP suits, q.inFlight + 1⟩)

/-- A held piece is held no more.  If one is given, it goes to the back of the queue. -/
def finish (q : WorkQueue) (requeue : Option PieceSpec) : WorkQueue :=
  match requeue with
  | none => ⟨q.pending, q.inFlight - 1⟩
  | some spec => ⟨q.pending ++ [spec], q.inFlight - 1⟩

end WorkQueue

/-- A piece that somebody holds, and whether it is settled. -/
structure ClaimedPiece where
  spec : PieceSpec
  settled : Bool
deriving DecidableEq

namespace ClaimedPiece

/-- A piece as it is when it is claimed. -/
def taken (spec : PieceSpec) : ClaimedPiece := ⟨spec, false⟩

/-- The holder lets go of its piece, which goes back if it is not settled. -/
def drop (c : ClaimedPiece) (q : WorkQueue) : WorkQueue :=
  if c.settled then q else q.finish (some c.spec)

/-- The holder settles its piece, and then lets go of it. -/
def complete (c : ClaimedPiece) (q : WorkQueue) : WorkQueue :=
  drop { c with settled := true } (q.finish none)

end ClaimedPiece

namespace WorkQueue

/-- A held piece is complete. -/
def complete (q : WorkQueue) (spec : PieceSpec) : WorkQueue := (ClaimedPiece.taken spec).complete q

/-- A held piece goes to the back of the queue. -/
def giveBack (q : WorkQueue) (spec : PieceSpec) : WorkQueue := (ClaimedPiece.taken spec).drop q

/-- Letting go of a settled piece does nothing more. -/
@[simp] theorem pending_complete (q : WorkQueue) (spec : PieceSpec) :
    (q.complete spec).pending = q.pending := rfl

@[simp] theorem inFlight_complete (q : WorkQueue) (spec : PieceSpec) :
    (q.complete spec).inFlight = q.inFlight - 1 := rfl

@[simp] theorem pending_giveBack (q : WorkQueue) (spec : PieceSpec) :
    (q.giveBack spec).pending = q.pending ++ [spec] := rfl

@[simp] theorem inFlight_giveBack (q : WorkQueue) (spec : PieceSpec) :
    (q.giveBack spec).inFlight = q.inFlight - 1 := rfl

end WorkQueue

/-- A queue with those who hold its pieces. -/
structure Worksite where
  queue : WorkQueue
  held : List (String × PieceSpec)
  /-- The pieces completed, first the earliest. -/
  completed : List PieceSpec

namespace Worksite

/-- The site at which all these pieces wait. -/
def ofPieces (pieces : List PieceSpec) : Worksite := ⟨.ofPieces pieces, [], []⟩

/-- The piece held under a name. -/
def holding? (s : Worksite) (name : String) : Option PieceSpec :=
  (s.held.find? (·.1 == name)).map (·.2)

/-- The site at which nobody holds a piece under this name. -/
def release (s : Worksite) (name : String) : Worksite :=
  { s with held := s.held.filter (·.1 != name) }

/-- The piece held under a name goes back to the queue. -/
def giveUp (s : Worksite) (name : String) : Worksite :=
  match s.holding? name with
  | none => s
  | some spec => { s.release name with queue := s.queue.giveBack spec }

/-- The piece held under a name is complete. -/
def complete (s : Worksite) (name : String) : Worksite :=
  match s.holding? name with
  | none => s
  | some spec =>
    { s.release name with queue := s.queue.complete spec, completed := s.completed ++ [spec] }

/-- A claim under a name.  A piece taken replaces the one held under that name, which goes back
after the new one is out. -/
def claim (s : Worksite) (name : String) (suits : PieceSpec → Bool) : Claim × Worksite :=
  match s.queue.claim suits with
  | (.piece spec, queue) =>
    let s := giveUp { s with queue := queue } name
    (.piece spec, { s with held := s.held ++ [(name, spec)] })
  | (answer, _) => (answer, s)

end Worksite

end Torrent
