import Torrent.Bytes.BigEndian

/-!
# The SHA-1 digest

The message is closed with one set bit, zeros and its length in bits, and cut
into blocks of 64 bytes.  Each block turns the five words of the state through
eighty rounds.
-/

namespace Torrent.Sha1

/-- The five words that a digest is made of. -/
structure State where
  a : UInt32
  b : UInt32
  c : UInt32
  d : UInt32
  e : UInt32

/-- The state before the first block. -/
def start : State := ⟨0x67452301, 0xEFCDAB89, 0x98BADCFE, 0x10325476, 0xC3D2E1F0⟩

/-- A word turned left by `n` bits. -/
def rotate (w n : UInt32) : UInt32 := (w <<< n) ||| (w >>> (32 - n))

/-- One round with the `i`-th word of the schedule. -/
def round (s : State) (i : Nat) (w : UInt32) : State :=
  let (f, k) : UInt32 × UInt32 :=
    if i < 20 then ((s.b &&& s.c) ||| (~~~s.b &&& s.d), 0x5A827999)
    else if i < 40 then (s.b ^^^ s.c ^^^ s.d, 0x6ED9EBA1)
    else if i < 60 then ((s.b &&& s.c) ||| (s.b &&& s.d) ||| (s.c &&& s.d), 0x8F1BBCDC)
    else (s.b ^^^ s.c ^^^ s.d, 0xCA62C1D6)
  ⟨rotate s.a 5 + f + s.e + k + w, s.a, rotate s.b 30, s.c, s.d⟩

/-- The words of a block. -/
def words : Bytes → List UInt32
  | a :: b :: c :: d :: rest => BigEndian.ofBytes [a, b, c, d] :: words rest
  | _ => []

/-- A schedule with `n` further words, each made from the words 3, 8, 14 and 16 before it. -/
def extend : Nat → Array UInt32 → Array UInt32
  | 0, ws => ws
  | n + 1, ws =>
    let back (k : Nat) : UInt32 := ws.getD (ws.size - k) 0
    extend n (ws.push (rotate (back 3 ^^^ back 8 ^^^ back 14 ^^^ back 16) 1))

/-- The rounds for the words of a schedule, counted from `i`. -/
def rounds : Nat → List UInt32 → State → State
  | _, [], s => s
  | i, w :: ws, s => rounds (i + 1) ws (round s i w)

/-- The state after one block. -/
def block (s : State) (bytes : Bytes) : State :=
  let t := rounds 0 (extend 64 (words bytes).toArray).toList s
  ⟨s.a + t.a, s.b + t.b, s.c + t.c, s.d + t.d, s.e + t.e⟩

/-- The state after the first `n` blocks of a message. -/
def blocks : Nat → Bytes → State → State
  | 0, _, s => s
  | n + 1, bytes, s => blocks n (bytes.drop 64) (block s (bytes.take 64))

/-- The message closed to a whole number of blocks. -/
def close (message : Bytes) : Bytes :=
  let bits := 8 * message.length
  message ++ 0x80 :: Bytes.zeros ((119 - message.length % 64) % 64) ++
    BigEndian.toBytes (UInt32.ofNat (bits / UInt32.size)) ++ BigEndian.toBytes (UInt32.ofNat bits)

/-- The words of the state in order, as bytes. -/
def State.bytes (s : State) : Octets 20 :=
  ⟨BigEndian.toBytes s.a ++ BigEndian.toBytes s.b ++ BigEndian.toBytes s.c ++ BigEndian.toBytes s.d ++
    BigEndian.toBytes s.e, rfl⟩

/-- The SHA-1 digest of a message. -/
def digest (message : Bytes) : Octets 20 :=
  let closed := close message
  (blocks (closed.length / 64) closed start).bytes

end Torrent.Sha1
