/-!
# Numbers in text

A number is a row of decimal digits.  A setting is such a number with at most
one plus sign in front, below 2^64.
-/

namespace Torrent

/-- The value of a decimal digit. -/
def digitValue? (c : Char) : Option Nat :=
  if '0' ≤ c ∧ c ≤ '9' then some (c.toNat - 48) else none

/-- The number that digits spell.  There must be at least one. -/
def ofDigits? : List Char → Option Nat
  | [] => none
  | cs => cs.foldlM (fun n c => (digitValue? c).map (n * 10 + ·)) 0

/-- The number below 2^64 that a text spells, with at most one plus sign in front. -/
def word64? (text : String) : Option UInt64 :=
  let digits := match text.toList with
    | '+' :: rest => rest
    | cs => cs
  match ofDigits? digits with
  | some n => if n < UInt64.size then some (UInt64.ofNat n) else none
  | none => none

end Torrent
