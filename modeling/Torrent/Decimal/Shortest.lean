/-!
# The shortest text of a number

A floating-point number stands for every real number that rounds to it.  Its
shortest decimal is the one with the fewest digits among these, and of several
with that many digits the nearest to the number.  The search goes through the
decimal grids from coarse to fine and tries on each the two neighbours of the
number; seventeen digits always suffice.

`floatText` writes that decimal with a point where the point falls within
sixteen digits or less than five zeros behind it, and with a signed exponent
else.
-/

namespace Torrent

/-- A positive number `mantissa * 2 ^ exponent`. -/
structure Binary where
  mantissa : Nat
  exponent : Int
deriving DecidableEq

/-- The least mantissa of 53 bits. -/
def Binary.leastFull : Nat := 0x10000000000000

/-- The parts of the positive number with these bits. -/
def Binary.ofBits (bits : UInt64) : Binary :=
  let fraction : Nat := bits.toNat % leastFull
  let biased : Nat := bits.toNat / leastFull % 0x800
  if biased = 0 then ⟨fraction, -1074⟩ else ⟨leastFull + fraction, (biased : Int) - 1075⟩

/-- A decimal `digits * 10 ^ exponent`. -/
structure Decimal where
  digits : Nat
  exponent : Int
deriving DecidableEq

/-- Both sides of a comparison of `a * 2 ^ p` with `b * 10 ^ q`, as whole numbers. -/
def commonScale (a : Nat) (p : Int) (b : Nat) (q : Int) : Nat × Nat :=
  (a * Nat.pow 2 p.toNat * Nat.pow 10 (-q).toNat, b * Nat.pow 10 q.toNat * Nat.pow 2 (-p).toNat)

/-- Whether a decimal rounds to the number.  The lower neighbour of a power of two is half as far
away as the upper one; a decimal half way between two numbers rounds to the even mantissa. -/
def Binary.owns (v : Binary) (d : Decimal) : Bool :=
  let atPower := v.mantissa = leastFull ∧ v.exponent ≠ -1074
  let low := if atPower then 4 * v.mantissa - 1 else 4 * v.mantissa - 2
  let high := 4 * v.mantissa + 2
  let (lowSide, decimal) := commonScale low (v.exponent - 2) d.digits d.exponent
  let (highSide, decimal') := commonScale high (v.exponent - 2) d.digits d.exponent
  if v.mantissa % 2 = 0 then decide (lowSide ≤ decimal ∧ decimal' ≤ highSide)
  else decide (lowSide < decimal ∧ decimal' < highSide)

/-- The number rounded down to the grid of a decimal exponent. -/
def Binary.floorAt (v : Binary) (q : Int) : Nat :=
  let (number, unit) := commonScale v.mantissa v.exponent 1 q
  number / unit

/-- Whether the upper of two neighbours on a grid is nearer, or as near and even. -/
def Binary.upperNearer (v : Binary) (q : Int) (lower : Nat) : Bool :=
  let (number, mid) := commonScale (2 * v.mantissa) v.exponent (2 * lower + 1) q
  decide (mid < number ∨ (mid = number ∧ lower % 2 = 1))

/-- The decimal on a grid that rounds to the number, the nearer one if both neighbours do. -/
def Binary.onGrid? (v : Binary) (q : Int) : Option Decimal :=
  let lower := v.floorAt q
  match v.owns ⟨lower, q⟩, v.owns ⟨lower + 1, q⟩ with
  | true, true => if v.upperNearer q lower then some ⟨lower + 1, q⟩ else some ⟨lower, q⟩
  | true, false => some ⟨lower, q⟩
  | false, true => some ⟨lower + 1, q⟩
  | false, false => none

/-- The first decimal found on `n` grids from the exponent `q` downwards. -/
def Binary.search (v : Binary) : Nat → Int → Option Decimal
  | 0, _ => none
  | n + 1, q =>
    match v.onGrid? q with
    | some d => if d.digits = 0 then v.search n (q - 1) else some d
    | none => v.search n (q - 1)

/-- The shortest decimal of a number.  The search starts on a grid too coarse for any double. -/
def Binary.shortest (v : Binary) : Decimal := (v.search 700 310).getD ⟨0, 0⟩

/-- A decimal without zeros at its end. -/
def Decimal.trim (d : Decimal) : Decimal := trimFuel 20 d
where
  /-- Takes off at most so many zeros. -/
  trimFuel : Nat → Decimal → Decimal
    | 0, d => d
    | n + 1, d =>
    if d.digits % 10 = 0 ∧ d.digits ≠ 0 then trimFuel n ⟨d.digits / 10, d.exponent + 1⟩ else d

/-- A run of zeros as text. -/
def zeroText (n : Nat) : String := String.ofList (List.replicate n '0')

/-- An exponent behind its mark, always with a sign. -/
def exponentText (e : Int) : String :=
  if e < 0 then "e-" ++ toString (-e).toNat else "e+" ++ toString e.toNat

/-- The text of a decimal: `point` is the number of digits before the point. -/
def Decimal.text (d : Decimal) : String :=
  let digits := Nat.toDigits 10 d.digits
  let point : Int := digits.length + d.exponent
  if 0 ≤ d.exponent ∧ point ≤ 16 then String.ofList digits ++ zeroText d.exponent.toNat ++ ".0"
  else if 0 < point ∧ point ≤ 16 then
    String.ofList (digits.take point.toNat) ++ "." ++ String.ofList (digits.drop point.toNat)
  else if -5 < point ∧ point ≤ 0 then
    "0." ++ zeroText (-point).toNat ++ String.ofList digits
  else
    String.ofList (digits.take 1) ++
      (if digits.length = 1 then "" else "." ++ String.ofList (digits.drop 1)) ++
      exponentText (point - 1)

/-- The shortest text of a finite number.  A minus sign is kept in front of zero. -/
def floatText (x : Float) : String :=
  let bits := x.toBits
  let sign := if 0x8000000000000000 ≤ bits.toNat then "-" else ""
  let v := Binary.ofBits bits
  sign ++ (if v.mantissa = 0 then "0.0" else v.shortest.trim.text)

end Torrent
