import Torrent.Store.Basic

/-!
# Reading from a piece

A stretch of a piece is read segment by segment, if the piece is there and the
stretch lies within it.  Reading gives nothing as soon as a file cannot be opened
or comes up short; it never fails.  A file that is not there is made, and is then
too short.
-/

namespace Torrent

/-- How far reading is. -/
inductive Reading
  /-- These segments are still to be opened and read, behind the bytes read so far. -/
  | taking (left : List Segment) (done : Bytes)
  | opened (file : FileId) (left : List Segment) (done : Bytes)
  | finished (result : Option Bytes)
deriving DecidableEq

namespace Store

/-- The reading of a stretch, before its first effect. -/
def read (s : Store) (i : PieceIndex) (start length : Nat) : Reading :=
  if s.hasPiece i = false then .finished none
  else
    match s.pieceLen? i with
    | none => .finished none
    | some pieceLen =>
      if length = 0 ∨ pieceLen.toNat < start + length then .finished none
      else
        match s.segments? ((s.pieceStart i).toNat + start) length with
        | none => .finished none
        | some gs => .taking gs []

end Store

namespace Reading

/-- The next effect of reading. -/
def step (r : Reading) (s : Store) (t : FileTree) : Reading × Store × FileTree :=
  match r with
  | .taking [] done => (.finished (some done), s, t)
  | .taking (g :: rest) done =>
    match s.openSlot t g.file with
    | (.error _, s, t) => (.finished none, s, t)
    | (.ok id, s, t) => (.opened id (g :: rest) done, s, t)
  | .opened _ [] done => (.finished (some done), s, t)
  | .opened id (g :: rest) done =>
    match t.readAt? id g.start g.length with
    | none => (.finished none, s, t)
    | some bytes => (.taking rest (done ++ bytes), s, t)
  | .finished result => (.finished result, s, t)

/-- The number of steps that are enough for the rest of the reading. -/
def stepsLeft : Reading → Nat
  | .taking left _ => 2 * left.length + 1
  | .opened _ left _ => 2 * left.length
  | .finished _ => 0

/-- So many steps. -/
def run : Nat → Reading → Store → FileTree → Reading × Store × FileTree
  | 0, r, s, t => (r, s, t)
  | n + 1, r, s, t =>
    let (r, s, t) := r.step s t
    run n r s t

end Reading

namespace Store

/-- A stretch read from beginning to end with nobody else at work. -/
def readBlock (s : Store) (t : FileTree) (i : PieceIndex) (start length : Nat) :
    Option Bytes × Store × FileTree :=
  let r := s.read i start length
  match r.run r.stepsLeft s t with
  | (.finished result, s, t) => (result, s, t)
  | (_, s, t) => (none, s, t)

/-- A whole piece read. -/
def readPiece (s : Store) (t : FileTree) (i : PieceIndex) : Option Bytes × Store × FileTree :=
  match s.pieceLen? i with
  | none => (none, s, t)
  | some length =>
    if length.toNat < UInt32.size then s.readBlock t i 0 length.toNat else (none, s, t)

end Store

end Torrent
