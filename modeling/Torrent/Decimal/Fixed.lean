import Torrent.Decimal.Shortest

/-!
# Numbers with one decimal place

A share of a hundred is shown with one place.  The number is the floating-point
quotient; its exact value is rounded to the nearest tenth, and a tie goes to the
even tenth.
-/

namespace Torrent

/-- `n / d` rounded to the nearest whole number, a tie to the even one. -/
def roundHalfEven (n d : Nat) : Nat :=
  let q := n / d
  let twice := 2 * (n % d)
  if d < twice ∨ (twice = d ∧ q % 2 = 1) then q + 1 else q

/-- The exact value of a number in tenths, rounded. -/
def Binary.tenths (v : Binary) : Nat :=
  let (number, unit) := commonScale v.mantissa v.exponent 1 (-1)
  roundHalfEven number unit

/-- A non-negative finite number with one decimal place. -/
def oneDecimalText (x : Float) : String :=
  let tenths := (Binary.ofBits x.toBits).tenths
  toString (tenths / 10) ++ "." ++ toString (tenths % 10)

/-- How many of a hundred `part` of `whole` is, with one decimal place. -/
def percentText (part whole : Nat) : String :=
  oneDecimalText ((UInt64.ofNat part).toFloat * 100.0 / (UInt64.ofNat whole).toFloat)

end Torrent
