/-!
# Where the bytes of a torrent lie

The files of a torrent lie end to end.  A range of the torrent falls into
segments, one for each file that it touches.  Files of length zero are touched
by none.

`segments` is defined for every list of lengths; it has no answer when the range
reaches past the last file.
-/

namespace Torrent

/-- A stretch of one file. -/
structure Segment where
  file : Nat
  /-- Where the stretch begins in the file. -/
  start : Nat
  length : Nat
deriving DecidableEq

/-- The segments of a range in the files from number `file` on, which have these lengths. -/
def segmentsFrom : Nat → List Nat → Nat → Nat → Option (List Segment)
  | file, lengths, start, length =>
    if length = 0 then some []
    else
      match lengths with
      | [] => none
      | size :: rest =>
        if size ≤ start then segmentsFrom (file + 1) rest (start - size) length
        else
          let here := min (size - start) length
          (segmentsFrom (file + 1) rest 0 (length - here)).map (⟨file, start, here⟩ :: ·)
termination_by _ lengths => lengths.length

/-- The segments of a range of the torrent whose files have these lengths. -/
def segments (lengths : List Nat) (start length : Nat) : Option (List Segment) :=
  segmentsFrom 0 lengths start length

end Torrent
