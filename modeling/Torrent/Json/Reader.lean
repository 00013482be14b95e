import Torrent.Bytes.Basic
import Torrent.Json.Fault

/-!
# Reading JSON from front to back

A reader takes bytes from the front of a text and stops at the first fault, so a
fault is always the first one in the order of the text.  A reader that fails
leaves the cursor where it stood, since the place of a fault found later depends
on it.

There are two kinds of places.  A fault in what has been taken is placed at the
cursor; a fault in the next byte is placed behind that byte.  A mismatch is found
without a place and gets the one of the cursor when its value is over
(`placed`).
-/

namespace Torrent.Json

/-- The rest of a text and the place at which it begins. -/
structure Cursor where
  rest : Bytes
  /-- The length of the rest, kept so that nobody has to count. -/
  left : Nat
  place : Place

/-- The cursor at the beginning of a text. -/
def Cursor.start (text : Bytes) : Cursor := ⟨text, text.length, ⟨1, 0⟩⟩

/-- The place behind a byte. -/
def Place.after (p : Place) (b : UInt8) : Place :=
  if b = 0x0a then ⟨p.line + 1, 0⟩ else ⟨p.line, p.column + 1⟩

/-- The cursor behind the next byte. -/
def Cursor.advance (c : Cursor) : Cursor :=
  match c.rest with
  | [] => c
  | b :: rest => ⟨rest, c.left - 1, c.place.after b⟩

/-- The cursor behind `n` bytes of the same line. -/
def Cursor.jump (c : Cursor) (n : Nat) : Cursor :=
  ⟨c.rest.drop n, c.left - n, ⟨c.place.line, c.place.column + n⟩⟩

/-- A reader of the front of a text. -/
abbrev Reader := EStateM Fault Cursor

namespace Reader

/-- The next byte, not taken. -/
def peek : Reader (Option UInt8) := return (← get).rest.head?

/-- The next byte, taken. -/
def take : Reader (Option UInt8) := do
  let b ← peek
  modify Cursor.advance
  return b

/-- The next byte is left out. -/
def skip : Reader Unit := modify Cursor.advance

/-- The text is malformed up to here. -/
def failHere {α : Type} (cause : Malformed) : Reader α := do
  throw ⟨.malformed cause, some (← get).place⟩

/-- The text is malformed in the next byte. -/
def failAhead {α : Type} (cause : Malformed) : Reader α := do
  throw ⟨.malformed cause, some (← get).advance.place⟩

/-- The value is not the one wanted. -/
def mismatch {α : Type} (cause : Mismatch) : Reader α := throw ⟨.mismatch cause, none⟩

/-- The reader, with a fault that has no place placed where it stops. -/
def placed {α : Type} (read : Reader α) : Reader α := fun c =>
  match read c with
  | .ok a c => .ok a c
  | .error fault c => .error ⟨fault.cause, some (fault.place.getD c.place)⟩ c

/-- The reader, and then the reader of what closes its value, which runs in any case.  The first
fault counts. -/
def closedBy {α : Type} (read : Reader α) (close : Reader Unit) : Reader α := fun c =>
  match read c with
  | .ok a c =>
    match close c with
    | .ok _ c => .ok a c
    | .error fault c => .error fault c
  | .error fault c =>
    match close c with
    | .ok _ c => .error fault c
    | .error _ c => .error fault c

/-- Whether a byte is a blank between values. -/
def isSpace (b : UInt8) : Bool := b == 0x20 || b == 0x0a || b == 0x09 || b == 0x0d

/-- The cursor behind the blanks at the front of a text that begins at a place. -/
def skipSpace : Bytes → Nat → Place → Cursor
  | [], left, p => ⟨[], left, p⟩
  | b :: rest, left, p =>
    if isSpace b then skipSpace rest (left - 1) (p.after b) else ⟨b :: rest, left, p⟩

/-- The next byte behind blanks, not taken. -/
def next : Reader (Option UInt8) := do
  modify fun c => skipSpace c.rest c.left c.place
  peek

/-- So many steps are enough for whatever takes a byte in each of them. -/
def fuel : Reader Nat := return (← get).left + 1

/-- The rest of a word. -/
def word : Bytes → Reader Unit
  | [] => pure ()
  | b :: bs => do
    match ← take with
    | none => failHere .endInValue
    | some c => if c = b then word bs else failHere .noWord

end Reader

end Torrent.Json
