import Torrent.Json.Fault
import Torrent.Path
import Torrent.Piece

/-!
# The description of a torrent

A torrent is a row of files laid end to end and cut into pieces of one length, of
which only the last may be shorter.  The description names the digest of every
piece and the path and length of every file.

The parts of a description must fit together: `Descriptor.check` names the first
fault.  The length of a piece (`Descriptor.pieceLen?`) is defined for every
description, also for one that has faults.
-/

namespace Torrent

/-- One file of a torrent. -/
structure FileSpan where
  /-- Its path below the download directory. -/
  path : String
  length : UInt64
deriving DecidableEq

/-- The description of a torrent. -/
structure Descriptor where
  infoHash : InfoHash
  totalLength : UInt64
  pieceLength : UInt64
  pieceHashes : List (Octets 20)
  files : List FileSpan
deriving DecidableEq

/-- What is wrong with a description. -/
inductive DescriptorFault
  | noPieceLength
  | longPieceLength (length : UInt64)
  | noContent
  | hashCount (hashes pieces : Nat)
  | noFiles
  | wrongSum (sum total : UInt64)
  | outside (path : String)
  | unreadable (fault : Json.Fault)
  | described (words : String)
deriving DecidableEq

/-- The text of the fault. -/
def DescriptorFault.message : DescriptorFault → String
  | .noPieceLength => "piece length is zero"
  | .longPieceLength length => "piece length " ++ toString length.toNat ++ " is too large"
  | .noContent => "torrent has no content"
  | .hashCount hashes pieces =>
    toString hashes ++ " piece hashes for " ++ toString pieces ++ " pieces"
  | .noFiles => "torrent lists no files"
  | .wrongSum sum total =>
    "files sum to " ++ toString sum.toNat ++ " bytes, total length is " ++ toString total.toNat
  | .outside path => "file path " ++ path ++ " leaves the download directory"
  | .unreadable fault => fault.message
  | .described words => words

namespace Descriptor

/-- The sum of the lengths of files, a 64-bit word. -/
def sumLengths (files : List FileSpan) : UInt64 := files.foldl (fun sum file => sum + file.length) 0

/-- The description whose total length is the sum of its files. -/
def ofFiles (infoHash : InfoHash) (pieceLength : UInt64) (pieceHashes : List (Octets 20))
    (files : List FileSpan) : Descriptor :=
  ⟨infoHash, sumLengths files, pieceLength, pieceHashes, files⟩

/-- The number of pieces. -/
def pieceCount (d : Descriptor) : Nat := d.pieceHashes.length

/-- The length of a piece that lies inside the torrent, if it is a 32-bit number. -/
def pieceLen? (d : Descriptor) (i : PieceIndex) : Option UInt32 :=
  let start := i.toNat * d.pieceLength.toNat
  if UInt64.size ≤ start ∨ d.pieceCount ≤ i.toNat ∨ d.totalLength.toNat ≤ start then none
  else
    let length := min d.pieceLength.toNat (d.totalLength.toNat - start)
    if length < UInt32.size then some (UInt32.ofNat length) else none

/-- What is needed to fetch a piece. -/
def piece? (d : Descriptor) (i : PieceIndex) : Option PieceSpec :=
  match d.pieceHashes[i.toNat]?, d.pieceLen? i with
  | some hash, some length => some ⟨i, hash, length⟩
  | _, _ => none

/-- The first fault of a description. -/
def check (d : Descriptor) : Except DescriptorFault Unit :=
  let pieces := (d.totalLength.toNat + d.pieceLength.toNat - 1) / d.pieceLength.toNat
  if d.pieceLength = 0 then .error .noPieceLength
  else if UInt32.size ≤ d.pieceLength.toNat then .error (.longPieceLength d.pieceLength)
  else if d.totalLength = 0 then .error .noContent
  else if d.pieceCount ≠ pieces then .error (.hashCount d.pieceCount pieces)
  else if d.files = [] then .error .noFiles
  else if sumLengths d.files ≠ d.totalLength then
    .error (.wrongSum (sumLengths d.files) d.totalLength)
  else
    match d.files.find? fun file => !Path.isContained file.path.toList with
    | some file => .error (.outside file.path)
    | none => .ok ()

end Descriptor

end Torrent
