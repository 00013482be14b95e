/-!
# Byte strings

Everything that travels on the wire or lies in a file is a list of bytes.  A
field of a fixed size is `Octets n`, a byte string that carries its length.

Two ways to lay a block over a byte string are told apart.  `Bytes.overlay`
replaces a stretch that is already there, as a piece buffer does.
`Bytes.writeAt` writes at a position that may lie past the end, as a file does:
the gap reads as zeros.  `length_overlay` and `length_writeAt` say how long
the result is.
-/

namespace Torrent

/-- A byte string. -/
abbrev Bytes := List UInt8

namespace Bytes

/-- The byte string of `n` zeros. -/
def zeros (n : Nat) : Bytes := List.replicate n 0

@[simp] theorem length_zeros (n : Nat) : (zeros n).length = n := by simp [zeros]

/-- `base` with the bytes from `start` on replaced by `block`.  A block that reaches the end is not
copied once more. -/
def overlay (base : Bytes) (start : Nat) (block : Bytes) : Bytes :=
  let stop := start + block.length
  if base.length ≤ stop then base.take start ++ block
  else base.take start ++ block ++ base.drop stop

theorem overlay_eq (base : Bytes) (start : Nat) (block : Bytes) :
    overlay base start block = base.take start ++ block ++ base.drop (start + block.length) := by
  simp only [overlay]
  split
  next hend => rw [List.drop_eq_nil_of_le hend, List.append_nil]
  next => rfl

theorem length_overlay {base block : Bytes} {start : Nat}
    (h : start + block.length ≤ base.length) :
    (overlay base start block).length = base.length := by
  simp [overlay_eq]
  omega

/-- Filled up with zeros to at least `n` bytes. -/
def padTo (base : Bytes) (n : Nat) : Bytes := base ++ zeros (n - base.length)

/-- `base` with `block` written at `start`.  A gap before `start` becomes zeros. -/
def writeAt (base : Bytes) (start : Nat) (block : Bytes) : Bytes :=
  overlay (padTo base start) start block

theorem length_writeAt (base : Bytes) (start : Nat) (block : Bytes) :
    (writeAt base start block).length = max base.length (start + block.length) := by
  simp [writeAt, overlay_eq, padTo]
  omega

/-- Cut or filled up with zeros to exactly `n` bytes. -/
def resize (base : Bytes) (n : Nat) : Bytes := (padTo base n).take n

@[simp] theorem length_resize (base : Bytes) (n : Nat) : (resize base n).length = n := by
  simp [resize, padTo]
  omega

/-- The UTF-8 bytes of a text. -/
def ofText (text : String) : Bytes := text.toUTF8.data.toList

/-- The text these bytes encode in UTF-8, if they do. -/
def toText? (bytes : Bytes) : Option String := String.fromUTF8? ⟨bytes.toArray⟩

end Bytes

/-- A byte string of length `n`. -/
structure Octets (n : Nat) where
  bytes : Bytes
  length_eq : bytes.length = n
deriving DecidableEq

namespace Octets

/-- The bytes as a field of `n` bytes, if there are so many. -/
def ofBytes? (n : Nat) (bytes : Bytes) : Option (Octets n) :=
  if h : bytes.length = n then some ⟨bytes, h⟩ else none

/-- A field of `n` zero bytes. -/
def zero (n : Nat) : Octets n := ⟨Bytes.zeros n, Bytes.length_zeros n⟩

/-- The first `n` bytes, filled up with zeros where there are fewer. -/
def ofFront (n : Nat) (bytes : Bytes) : Octets n := ⟨bytes.resize n, Bytes.length_resize bytes n⟩

@[simp] theorem ofBytes?_bytes {n : Nat} (o : Octets n) : ofBytes? n o.bytes = some o := by
  simp [ofBytes?, o.length_eq]

end Octets

end Torrent
