import Torrent.Json.Reader

/-!
# Text in JSON

A text stands between quotation marks.  Marks, backslashes and control characters
are written with a backslash; any character may be written as four hexadecimal
digits, one beyond the first 2^16 as two of them.

`Reader.text` reads what `encodeText` writes; the bytes between the marks stay
bytes until the whole is turned into a text.
-/

namespace Torrent.Json

/-- The last digit of a control character's number. -/
def lowDigit (n : Nat) : UInt8 := if n < 10 then UInt8.ofNat (0x30 + n) else UInt8.ofNat (0x57 + n)

/-- A byte as it is written between quotation marks. -/
def encodeByte (b : UInt8) : Bytes :=
  if b = 0x22 then [0x5c, 0x22]
  else if b = 0x5c then [0x5c, 0x5c]
  else if b = 0x08 then [0x5c, 0x62]
  else if b = 0x09 then [0x5c, 0x74]
  else if b = 0x0a then [0x5c, 0x6e]
  else if b = 0x0c then [0x5c, 0x66]
  else if b = 0x0d then [0x5c, 0x72]
  else if b < 0x20 then [0x5c, 0x75, 0x30, 0x30, lowDigit (b.toNat / 16), lowDigit (b.toNat % 16)]
  else [b]

/-- A text between quotation marks. -/
def encodeText (bytes : Bytes) : Bytes := 0x22 :: bytes.flatMap encodeByte ++ [0x22]

namespace Reader

/-- The value of a hexadecimal digit, in either case. -/
def hexDigit? (b : UInt8) : Option Nat :=
  if 0x30 ≤ b && b ≤ 0x39 then some (b.toNat - 0x30)
  else if 0x61 ≤ b && b ≤ 0x66 then some (b.toNat - 0x57)
  else if 0x41 ≤ b && b ≤ 0x46 then some (b.toNat - 0x37)
  else none

/-- The number that four hexadecimal digits spell. -/
def hexWord? (a b c d : UInt8) : Option Nat := do
  let a ← hexDigit? a
  let b ← hexDigit? b
  let c ← hexDigit? c
  let d ← hexDigit? d
  return ((a * 16 + b) * 16 + c) * 16 + d

/-- Four hexadecimal digits. -/
def hexWord : Reader Nat := do
  match (← get).rest with
  | a :: b :: c :: d :: _ =>
    skip; skip; skip; skip
    match hexWord? a b c d with
    | some n => return n
    | none => failHere .badEscape
  | rest =>
    rest.forM fun _ => skip
    failHere .endInText

/-- The UTF-8 bytes of a code point. -/
def utf8 (n : Nat) : Bytes := String.utf8EncodeChar (Char.ofNat n)

/-- The bytes for four hexadecimal digits.  A number from the upper half of the surrogates needs one
from the lower half behind it. -/
def hexEscape : Reader Bytes := do
  let n ← hexWord
  if 0xdc00 ≤ n ∧ n ≤ 0xdfff then failHere .loneSurrogate
  else if n < 0xd800 ∨ 0xdbff < n then return utf8 n
  else
    match ← peek with
    | none => failHere .endInText
    | some b =>
      skip
      if b ≠ 0x5c then failHere .escapeCut
      else
        match ← peek with
        | none => failHere .endInText
        | some b =>
          skip
          if b ≠ 0x75 then failHere .escapeCut
          else
            let low ← hexWord
            if low < 0xdc00 ∨ 0xdfff < low then failHere .loneSurrogate
            else return utf8 (0x10000 + (n - 0xd800) * 0x400 + (low - 0xdc00))

/-- The byte that a letter behind a backslash stands for. -/
def escapedByte? (b : UInt8) : Option UInt8 :=
  if b = 0x22 ∨ b = 0x5c ∨ b = 0x2f then some b
  else if b = 0x62 then some 0x08
  else if b = 0x66 then some 0x0c
  else if b = 0x6e then some 0x0a
  else if b = 0x72 then some 0x0d
  else if b = 0x74 then some 0x09
  else none

/-- The bytes that stand behind a backslash. -/
def escape : Reader Bytes := do
  match ← take with
  | none => failHere .endInText
  | some b =>
    match escapedByte? b with
    | some c => return [c]
    | none => if b = 0x75 then hexEscape else failHere .badEscape

/-- The bytes up to the closing mark, behind those in `front`, which stand last first. -/
def textBytes : Nat → Bytes → Reader Bytes
  | 0, _ => failHere .endInText
  | fuel + 1, front => do
    match ← take with
    | none => failHere .endInText
    | some b =>
      if b = 0x22 then return front.reverse
      else if b = 0x5c then
        let bytes ← escape
        textBytes fuel (bytes.reverse ++ front)
      else if b < 0x20 then failHere .controlCharacter
      else textBytes fuel (b :: front)

/-- A text behind its opening mark. -/
def text : Reader String := do
  let bytes ← textBytes (← fuel) []
  match Bytes.toText? bytes with
  | some s => return s
  | none => failHere .badEscape

/-- What stands behind a backslash in a text that is not looked at: surrogates need not match. -/
def skipEscape : Reader Unit := do
  match ← take with
  | none => failHere .endInText
  | some b =>
    if (escapedByte? b).isSome then pure ()
    else if b = 0x75 then discard hexWord
    else failHere .badEscape

/-- A text behind its opening mark that is not looked at. -/
def skipText : Nat → Reader Unit
  | 0 => failHere .endInText
  | fuel + 1 => do
    match ← peek with
    | none => failHere .endInText
    | some b =>
      if b = 0x22 then skip
      else if b = 0x5c then
        skip
        skipEscape
        skipText fuel
      else if b < 0x20 then failHere .controlCharacter
      else
        skip
        skipText fuel

end Reader

end Torrent.Json
