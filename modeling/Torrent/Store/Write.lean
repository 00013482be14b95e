import Torrent.Store.Basic

/-!
# Writing a piece

A piece is written segment by segment.  When all of it is in the files, its bit
is set and the whole bitmap written to the resume file, which is then cut to the
length of the bitmap.

Writing is described step by step, because other writers and readers come in
between: each step is one effect on the files.  An effect may fail, and then a
part of its bytes may have been written.  Only one writer at a time works on the
resume file, and it cuts the file also when the bitmap could not be written.
-/

namespace Torrent

/-- A failure put upon an effect: how many bytes of it are done, and the error. -/
structure Fault where
  done : Nat
  error : IoError
deriving DecidableEq

/-- A segment and the bytes for it. -/
abbrev Chunk := Segment × Bytes

/-- How far the writing of a piece is. -/
inductive Writing
  /-- These segments are still to be opened and written. -/
  | placing (index : PieceIndex) (left : List Chunk)
  | opened (index : PieceIndex) (file : FileId) (left : List Chunk)
  /-- The bit is to be set. -/
  | marking (index : PieceIndex)
  /-- This bitmap is to be written to the resume file. -/
  | saving (bitmap : Bytes)
  /-- The resume file is to be cut to this length, behind a bitmap that was written or failed to
  be. -/
  | cutting (length : Nat) (failure : Option IoError)
  | finished (result : Except StorageError Unit)

/-- Bytes dealt out to segments in order. -/
def deal : List Segment → Bytes → List Chunk
  | [], _ => []
  | g :: rest, data => (g, data.take g.length) :: deal rest (data.drop g.length)

namespace Store

/-- The writing of a piece, before its first effect. -/
def write (s : Store) (i : PieceIndex) (data : Bytes) : Writing :=
  match s.pieceLen? i with
  | none => .finished (.error (.outOfRange i))
  | some length =>
    if data.length ≠ length.toNat then
      .finished (.error (.wrongLength i data.length length.toNat))
    else
      match s.segments? (s.pieceStart i).toNat length.toNat with
      | none => .finished (.error (.outOfRange i))
      | some gs => .placing i (deal gs data)

end Store

namespace Writing

/-- Writing that failed. -/
def failed (e : IoError) : Writing := .finished (.error (.io e))

/-- The next effect of writing, which fails if `fault` says so. -/
def step (w : Writing) (fault : Option Fault) (s : Store) (t : FileTree) :
    Writing × Store × FileTree :=
  match w with
  | .placing i [] => (.marking i, s, t)
  | .placing i ((g, bytes) :: rest) =>
    match fault with
    | some fault => (failed fault.error, s, t)
    | none =>
      match s.openSlot t g.file with
      | (.error e, s, t) => (failed e, s, t)
      | (.ok id, s, t) => (.opened i id ((g, bytes) :: rest), s, t)
  | .opened i _ [] => (.marking i, s, t)
  | .opened i id ((g, bytes) :: rest) =>
    match fault with
    | some fault => (failed fault.error, s, t.writeAt id g.start (bytes.take fault.done))
    | none => (.placing i rest, s, t.writeAt id g.start bytes)
  | .marking i =>
    if s.rewriting then (.marking i, s, t)
    else
      let completed := s.completed.insert i
      (.saving completed.bytes, { s with completed := completed, rewriting := true }, t)
  | .saving bitmap =>
    match fault with
    | some fault =>
      (.cutting bitmap.length (some fault.error), s, t.writeAt s.resume 0 (bitmap.take fault.done))
    | none => (.cutting bitmap.length none, s, t.writeAt s.resume 0 bitmap)
  | .cutting n failure =>
    let s := { s with rewriting := false }
    match fault, failure with
    | some fault, _ => (failed fault.error, s, t)
    | none, some e => (failed e, s, t.setLength s.resume n)
    | none, none => (.finished (.ok ()), s, t.setLength s.resume n)
  | .finished result => (.finished result, s, t)

/-- The store after writing was given up where it is: the resume file is free for others. -/
def giveUp (w : Writing) (s : Store) : Store :=
  match w with
  | .saving _ | .cutting _ _ => { s with rewriting := false }
  | _ => s

/-- The number of steps that are enough for the rest of the writing. -/
def stepsLeft : Writing → Nat
  | .placing _ left => 2 * left.length + 4
  | .opened _ _ left => 2 * left.length + 3
  | .marking _ => 3
  | .saving _ => 2
  | .cutting _ _ => 1
  | .finished _ => 0

/-- So many steps without a failure put upon them. -/
def run : Nat → Writing → Store → FileTree → Writing × Store × FileTree
  | 0, w, s, t => (w, s, t)
  | n + 1, w, s, t =>
    let (w, s, t) := w.step none s t
    run n w s t

end Writing

namespace Store

/-- A piece written from beginning to end with nobody else at work. -/
def writePiece (s : Store) (t : FileTree) (i : PieceIndex) (data : Bytes) :
    Except StorageError Unit × Store × FileTree :=
  let w := s.write i data
  match w.run w.stepsLeft s t with
  | (.finished result, s, t) => (result, s, t)
  | (_, s, t) => (.error (.io (.other "busy")), s, t)

end Store

end Torrent
