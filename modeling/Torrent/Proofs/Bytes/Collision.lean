import Torrent.Proofs.Bytes.Digest

/-!
# Contents with one digest

The digest of a content does not tell it from all others.  `first` and `second` are
the fronts of two documents, of five blocks each.  They differ in the last two
blocks, and have one digest, which they keep whatever follows behind both of them
(`digest_twin`).
-/

namespace Torrent.Sha1

/-- Three blocks with which both documents begin. -/
def front : List UInt32 := [
    0x25504446, 0x2D312E33, 0x0A25E2E3, 0xCFD30A0A, 0x0A312030, 0x206F626A, 0x0A3C3C2F, 0x57696474,
    0x68203220, 0x3020522F, 0x48656967, 0x68742033, 0x20302052, 0x2F547970, 0x65203420, 0x3020522F,
    0x53756274, 0x79706520, 0x35203020, 0x522F4669, 0x6C746572, 0x20362030, 0x20522F43, 0x6F6C6F72,
    0x53706163, 0x65203720, 0x3020522F, 0x4C656E67, 0x74682038, 0x20302052, 0x2F426974, 0x73506572,
    0x436F6D70, 0x6F6E656E, 0x7420383E, 0x3E0A7374, 0x7265616D, 0x0AFFD8FF, 0xFE002453, 0x48412D31,
    0x20697320, 0x64656164, 0x21212121, 0x21852FEC, 0x09233975, 0x9C39B1A1, 0xC63C4C97, 0xE1FFFE01]

/-- The first document, two blocks further. -/
def first : Bytes := (front ++ [
    0x7F46DC93, 0xA6B67E01, 0x3B029AAA, 0x1DB2560B, 0x45CA67D6, 0x88C7F84B, 0x8C4C791F, 0xE02B3DF6,
    0x14F86DB1, 0x690901C5, 0x6B45C153, 0x0AFEDFB7, 0x6038E972, 0x722FE7AD, 0x728F0E49, 0x04E046C2,
    0x30570FE9, 0xD41398AB, 0xE12EF5BC, 0x942BE335, 0x42A4802D, 0x98B5D70F, 0x2A332EC3, 0x7FAC3514,
    0xE74DDC0F, 0x2CC1A874, 0xCD0C7830, 0x5A215664, 0x61309789, 0x606BD0BF, 0x3F98CDA8, 0x044629A1
  ]).flatMap BigEndian.toBytes

/-- The second document, two blocks further. -/
def second : Bytes := (front ++ [
    0x7346DC91, 0x66B67E11, 0x8F029AB6, 0x21B2560F, 0xF9CA67CC, 0xA8C7F85B, 0xA84C7903, 0x0C2B3DE2,
    0x18F86DB3, 0xA90901D5, 0xDF45C14F, 0x26FEDFB3, 0xDC38E96A, 0xC22FE7BD, 0x728F0E45, 0xBCE046D2,
    0x3C570FEB, 0x141398BB, 0x552EF5A0, 0xA82BE331, 0xFEA48037, 0xB8B5D71F, 0x0E332EDF, 0x93AC3500,
    0xEB4DDC0D, 0xECC1A864, 0x790C782C, 0x76215660, 0xDD309791, 0xD06BD0AF, 0x3F98CDA4, 0xBC4629B1
  ]).flatMap BigEndian.toBytes

/-- Whatever follows, the digest is the same. -/
theorem digest_twin (rest : Bytes) : digest (first ++ rest) = digest (second ++ rest) := by
  have hfirst : first.length = 64 * 5 := by decide +kernel
  have hsecond : second.length = 64 * 5 := by decide +kernel
  refine digest_append_of_blocks hfirst hsecond (State.numbers_inj ?_) rest
  rw [numbers_blocks 5 first start (Nat.le_of_eq hfirst.symm),
    numbers_blocks 5 second start (Nat.le_of_eq hsecond.symm)]
  decide +kernel

/-- The last block of the first document does not fit behind the others of the second one. -/
theorem digest_ne_of_mixed : digest (second.take 256 ++ first.drop 256) ≠ digest first := by
  rw [ne_eq, digest_eq_iff]
  decide +kernel

end Torrent.Sha1
