import Torrent.Bytes.Basic

/-!
# Bitmaps of pieces

A bitmap says of each piece whether it is there.  The first piece is the highest
bit of the first byte.  A bitmap does not know how many pieces there are: its
last byte may hold padding, and a bitmap from elsewhere may be too short or too
long.  So a position outside reads as clear and setting it changes nothing
(`Bitfield.insert_outside`).

`Bitfield.bit` is the view in which every operation is described, and
`Bitfield.bit_insert` is its law: setting a position changes that one and no
other.
-/

namespace Torrent

/-- The number of bytes that hold `n` bits. -/
def byteLength (n : Nat) : Nat := (n + 7) / 8

/-- The bit of a byte at a position counted from the highest bit. -/
def bitOfByte (b : UInt8) (k : Nat) : Bool := b.toNat.testBit (7 - k)

/-- The byte with the bit at a position set, counted from the highest bit. -/
def setBitOfByte (b : UInt8) (k : Nat) : UInt8 := b ||| UInt8.ofNat (1 <<< (7 - k))

theorem bitOfByte_setBitOfByte (b : UInt8) {j k : Nat} (hj : j < 8) (hk : k < 8) :
    bitOfByte (setBitOfByte b k) j = (bitOfByte b j || decide (j = k)) := by
  have small : 1 <<< (7 - k) < 256 := by
    rw [Nat.one_shiftLeft]
    exact Nat.lt_of_lt_of_le (Nat.pow_lt_pow_right (by decide) (by omega : 7 - k < 8)) (by decide)
  rw [Nat.one_shiftLeft] at small
  simp only [bitOfByte, setBitOfByte, UInt8.toNat_or, UInt8.toNat_ofNat', Nat.reducePow,
    Nat.mod_eq_of_lt small, Nat.one_shiftLeft, Nat.testBit_or, Nat.testBit_two_pow]
  congr 1
  exact decide_eq_decide.2 (by omega)

/-- A bitmap of pieces. -/
structure Bitfield where
  /-- The bytes, the first piece in the highest bit of the first. -/
  bytes : Bytes
deriving DecidableEq

namespace Bitfield

/-- The bitmap for `n` pieces with none of them there. -/
def empty (n : Nat) : Bitfield := ⟨Bytes.zeros (byteLength n)⟩

/-- The bit at a position, if the bitmap reaches that far. -/
def bit? (f : Bitfield) (i : Nat) : Option Bool :=
  f.bytes[i / 8]?.map fun b => bitOfByte b (i % 8)

/-- The bitmap with a bit set, if it reaches that far. -/
def set? (f : Bitfield) (i : Nat) : Option Bitfield :=
  f.bytes[i / 8]?.map fun b => ⟨f.bytes.set (i / 8) (setBitOfByte b (i % 8))⟩

/-- The bit at a position, clear outside. -/
def bit (f : Bitfield) (i : Nat) : Bool := (f.bit? i).getD false

/-- Whether the piece is there. -/
def has (f : Bitfield) (piece : UInt32) : Bool := f.bit piece.toNat

/-- The bitmap with the piece there.  A piece outside is ignored. -/
def insert (f : Bitfield) (piece : UInt32) : Bitfield := (f.set? piece.toNat).getD f

/-- The number of set bits among the first `n` of a byte. -/
def countByte (b : UInt8) (n : Nat) : Nat :=
  ((List.range (min n 8)).filter (bitOfByte b)).length

/-- The number of set bits among the first `n` positions of a byte string. -/
def countFront : Bytes → Nat → Nat
  | [], _ => 0
  | b :: rest, n => if n = 0 then 0 else countByte b n + countFront rest (n - 8)

/-- The number of set bits among the first `n` positions, a position being a 32-bit word:
position `2 ^ 32` is the first one again. -/
def count (f : Bitfield) (n : Nat) : Nat :=
  n / UInt32.size * countFront f.bytes UInt32.size + countFront f.bytes (n % UInt32.size)

/-- The bitmap long enough for a piece, filled up with clear bits. -/
def growFor (f : Bitfield) (piece : UInt32) : Bitfield :=
  ⟨f.bytes.padTo (byteLength (piece.toNat + 1))⟩

@[simp] theorem bytes_empty (n : Nat) : (empty n).bytes = Bytes.zeros (byteLength n) := rfl

theorem bit_eq (f : Bitfield) (i : Nat) :
    f.bit i = match f.bytes[i / 8]? with
      | some b => bitOfByte b (i % 8)
      | none => false := by
  simp only [bit, bit?]
  cases f.bytes[i / 8]? <;> rfl

@[simp] theorem length_insert (f : Bitfield) (p : UInt32) :
    (f.insert p).bytes.length = f.bytes.length := by
  simp only [insert, set?]
  cases f.bytes[p.toNat / 8]? <;> simp

/-- A piece outside the bitmap is ignored. -/
theorem insert_outside {f : Bitfield} {p : UInt32} (h : f.bytes.length ≤ p.toNat / 8) :
    f.insert p = f := by
  simp [insert, set?, List.getElem?_eq_none h]

/-- Setting a piece changes its own bit and no other. -/
theorem bit_insert (f : Bitfield) (p : UInt32) (j : Nat) :
    (f.insert p).bit j = (f.bit j || decide (j = p.toNat ∧ p.toNat / 8 < f.bytes.length)) := by
  by_cases hp : p.toNat / 8 < f.bytes.length
  · have hins : (f.insert p).bytes =
        f.bytes.set (p.toNat / 8) (setBitOfByte f.bytes[p.toNat / 8] (p.toNat % 8)) := by
      simp [insert, set?, List.getElem?_eq_getElem hp]
    rw [bit_eq, bit_eq, hins, List.getElem?_set]
    by_cases hj : p.toNat / 8 = j / 8
    · have hlt : j / 8 < f.bytes.length := hj ▸ hp
      simp only [hj, if_true, hlt, List.getElem?_eq_getElem hlt]
      rw [bitOfByte_setBitOfByte _ (by omega) (by omega)]
      have same : j % 8 = p.toNat % 8 ↔ j = p.toNat := by omega
      simp [same]
    · simp only [hj, if_false]
      have hne : ¬(j = p.toNat ∧ p.toNat / 8 < f.bytes.length) := by
        rintro ⟨rfl, _⟩
        exact hj rfl
      simp [hne]
  · rw [insert_outside (by omega)]
    simp [hp]

end Bitfield

end Torrent
