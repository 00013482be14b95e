import Torrent.Bitfield
import Torrent.Failure
import Torrent.FileTree
import Torrent.Store.Layout

/-!
# The store of pieces

A store lays the pieces of a torrent into its files and keeps a bitmap of those
it has.  The bitmap is also in the resume file, so that a later store on the same
directory knows what is there.

Opening reads the resume file.  One that is shorter than the bitmap says nothing,
and one that is longer is cut.  The files are opened when a piece first touches
them.
-/

namespace Torrent

/-- A file of a store. -/
structure Slot where
  /-- The path, from the working directory. -/
  path : List Char
  length : UInt64
  handle : Option FileId
deriving DecidableEq

/-- An open store. -/
structure Store where
  root : List Char
  resumePath : List Char
  pieceLength : UInt64
  totalLength : UInt64
  pieceCount : Nat
  slots : List Slot
  resume : FileId
  /-- Whether the resume file is being rewritten. -/
  rewriting : Bool
  /-- The pieces that are there. -/
  completed : Bitfield
deriving DecidableEq

namespace Store

/-- The bitmap that a resume file holds for so many pieces. -/
def bitmapOf (resume : Bytes) (pieceCount : Nat) : Bitfield :=
  if byteLength pieceCount ≤ resume.length then ⟨resume.take (byteLength pieceCount)⟩
  else .empty pieceCount

/-- A store on a directory, which is made if it is not there. -/
def open_ (t : FileTree) (root : List Char) (d : Descriptor) (resumeName : List Char) :
    Except StorageError Store × FileTree :=
  match t.makeDirectories root with
  | (.error e, t) => (.error (.io e), t)
  | (.ok (), t) =>
    let resumePath := Path.join root resumeName
    match t.openFile resumePath with
    | .error e => (.error (.io e), t)
    | .ok (resume, t) =>
      (.ok
        { root := root
          resumePath := resumePath
          pieceLength := d.pieceLength
          totalLength := d.totalLength
          pieceCount := d.pieceCount
          slots := d.files.map fun file => ⟨Path.join root file.path.toList, file.length, none⟩
          resume := resume
          rewriting := false
          completed := bitmapOf (t.content resume) d.pieceCount }, t)

/-- Whether a piece is there. -/
def hasPiece (s : Store) (i : PieceIndex) : Bool := s.completed.has i

/-- Where a piece begins in the torrent. -/
def pieceStart (s : Store) (i : PieceIndex) : UInt64 := i.toUInt64 * s.pieceLength

/-- The length of a piece. -/
def pieceLen? (s : Store) (i : PieceIndex) : Option UInt64 :=
  if s.pieceCount ≤ i.toNat then none
  else
    let start := s.pieceStart i
    if start < s.totalLength then some (min s.pieceLength (s.totalLength - start)) else none

/-- The segments of a range of the torrent. -/
def segments? (s : Store) (start length : Nat) : Option (List Segment) :=
  segments (s.slots.map fun slot => slot.length.toNat) start length

/-- The directory of a slot, with all those above it. -/
def makeParent (t : FileTree) (slot : Slot) : Except IoError Unit × FileTree :=
  match Path.parent? slot.path with
  | some parent => t.makeDirectories parent
  | none => (.ok (), t)

/-- The file of a slot, opened if it is not open.  The directories above it are made. -/
def openSlot (s : Store) (t : FileTree) (file : Nat) : Except IoError FileId × Store × FileTree :=
  match s.slots[file]? with
  | none => (.error .notFound, s, t)
  | some slot =>
    match slot.handle with
    | some id => (.ok id, s, t)
    | none =>
      match makeParent t slot with
      | (.error e, t) => (.error e, s, t)
      | (.ok (), t) =>
        match t.openFile slot.path with
        | .error e => (.error e, s, t)
        | .ok (id, t) =>
          (.ok id, { s with slots := s.slots.set file { slot with handle := some id } }, t)

/-- The store with all its files closed.  The resume file stays open. -/
def close (s : Store) : Store :=
  { s with slots := s.slots.map fun slot => { slot with handle := none } }

end Store

end Torrent
