import Torrent.Decimal.Shortest
import Torrent.Json.Reader

/-!
# Numbers in JSON

A whole number below 2^64, or a negative one down to -2^63, is kept as it is.
Every other number becomes a floating-point number: the digits are gathered as
long as they fit 64 bits, further ones only count as places, and the result is
scaled by a power of ten in one step, or in steps of 308 places where it is
tiny.  A number too large for that is malformed.
-/

namespace Torrent.Json

/-- A number. -/
inductive Number
  | natural (n : UInt64)
  | negative (n : Int)
  | fraction (x : Float)

/-- The number as it is named in a message. -/
def Number.found : Number → Found
  | .natural n => .integer n.toNat
  | .negative n => .integer n
  | .fraction x => .fraction (floatText x)

namespace Reader

/-- Whether a byte is a decimal digit. -/
def isDigit (b : UInt8) : Bool := 0x30 ≤ b && b ≤ 0x39

/-- Digits gathered into `n` as long as it stays below a bound, and how many were. -/
def gather (bound n count : Nat) : List UInt8 → Nat × Nat
  | [] => (n, count)
  | d :: ds =>
    let n' := n * 10 + (d.toNat - 0x30)
    if n' < bound then gather bound n' (count + 1) ds else (n, count)

/-- The digits at the front, taken. -/
def digits : Reader (List UInt8) := do
  let c ← get
  let ds := c.rest.takeWhile isDigit
  set (c.jump ds.length)
  return ds

/-- `x / 10 ^ places`, in steps of 308 places. -/
def shrink (x : Float) (places : Nat) : Float :=
  if places ≤ 308 then x / Float.ofScientific 1 false places
  else if x == 0.0 then x
  else shrink (x / Float.ofScientific 1 false 308) (places - 308)
termination_by places

/-- The number with these digits and this decimal exponent. -/
def scaled (positive : Bool) (n : Nat) (exponent : Int) : Reader Float := do
  let x := (UInt64.ofNat n).toFloat
  let sign (y : Float) : Float := if positive then y else -y
  if exponent < 0 then return sign (shrink x (-exponent).toNat)
  else if exponent ≤ 308 then
    let y := x * Float.ofScientific 1 false exponent.toNat
    if y.isInf then failHere .numberTooLarge else return sign y
  else if x == 0.0 then return sign x
  else failHere .numberTooLarge

/-- An exponent behind its letter, for digits that stand at the decimal exponent `start`. -/
def exponent (positive : Bool) (n : Nat) (start : Int) : Reader Float := do
  skip
  let up ← do
    match ← peek with
    | some 0x2b => skip; pure true
    | some 0x2d => skip; pure false
    | _ => pure true
  match ← take with
  | none => failHere .endInValue
  | some first =>
    if !isDigit first then failHere .badNumber
    else
      let ds := (← get).rest.takeWhile isDigit
      let (e, count) := gather 0x80000000 (first.toNat - 0x30) 0 ds
      if count = ds.length then
        let _ ← digits
        scaled positive n (if up then start + e else start - e)
      else if n ≠ 0 ∧ up then
        (ds.take (count + 1)).forM fun _ => skip
        failHere .numberTooLarge
      else
        let _ ← digits
        return if positive then 0.0 else -0.0

/-- The number behind its digits and places: what follows may be an exponent. -/
def behindPlaces (positive : Bool) (n : Nat) (start : Int) : Reader Float := do
  match ← peek with
  | some 0x65 | some 0x45 => exponent positive n start
  | _ => scaled positive n start

/-- The places behind a point, for digits that stand at the decimal exponent `start`. -/
def places (positive : Bool) (n : Nat) (start : Int) : Reader Float := do
  skip
  let ds ← digits
  if ds.isEmpty then
    match ← peek with
    | some _ => failAhead .badNumber
    | none => failAhead .endInValue
  else
    let (n, count) := gather UInt64.size n 0 ds
    behindPlaces positive n (start - count)

/-- A number behind its sign. -/
def number (positive : Bool) : Reader Number := do
  match ← take with
  | none => failHere .endInValue
  | some first =>
    if !isDigit first then failHere .badNumber
    else if first = 0x30 then
      match ← peek with
      | some b => if isDigit b then failAhead .badNumber else rest 0
      | none => rest 0
    else
      let ds ← digits
      let (n, count) := gather UInt64.size (first.toNat - 0x30) 0 ds
      if count = ds.length then rest n
      else
        let left : Nat := ds.length - count
        match ← peek with
        | some 0x2e => return .fraction (← places positive n left)
        | _ => return .fraction (← behindPlaces positive n left)
where
  /-- What follows the digits of a number that fits 64 bits. -/
  rest (n : Nat) : Reader Number := do
    match ← peek with
    | some 0x2e => return .fraction (← places positive n 0)
    | some 0x65 | some 0x45 => return .fraction (← exponent positive n 0)
    | _ =>
      if positive then return .natural (UInt64.ofNat n)
      else if 0 < n ∧ n ≤ 0x8000000000000000 then return .negative (-n)
      else return .fraction (-(UInt64.ofNat n).toFloat)

/-- A number behind its sign that is not looked at: its size does not matter. -/
def skipNumber : Reader Unit := do
  match ← take with
  | none => failHere .badNumber
  | some first =>
    if !isDigit first then failHere .badNumber
    else if first = 0x30 then
      match ← peek with
      | some b => if isDigit b then failAhead .badNumber else rest
      | none => rest
    else
      let _ ← digits
      rest
where
  /-- An exponent that is not looked at. -/
  skipExponent : Reader Unit := do
    skip
    match ← peek with
    | some 0x2b | some 0x2d => skip
    | _ => pure ()
    match ← take with
    | none => failHere .badNumber
    | some b => if isDigit b then discard digits else failHere .badNumber
  /-- What follows the digits of a number that is not looked at. -/
  rest : Reader Unit := do
    match ← peek with
    | some 0x2e =>
      skip
      let ds ← digits
      if ds.isEmpty then failAhead .badNumber
      else
        match ← peek with
        | some 0x65 | some 0x45 => skipExponent
        | _ => pure ()
    | some 0x65 | some 0x45 => skipExponent
    | _ => pure ()

end Reader

end Torrent.Json
