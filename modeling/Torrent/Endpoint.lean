import Torrent.Decimal.Word

/-!
# Endpoints

An endpoint is an address and a port.  Four numbers with points between them are
the short form of an address, eight groups of hexadecimal digits the long form.
The long form stands in brackets, may close with the number of a scope, may leave
out one run of zero groups, and may spell its last two groups as four numbers.

A long address whose first five groups are zero and whose sixth is `ffff` stands
for a short one.  `Endpoint.normalized` replaces it, and an endpoint is compared
in that form wherever one peer must not be counted twice.
-/

namespace Torrent

/-- An address of four numbers. -/
structure ShortAddress where
  a : UInt8
  b : UInt8
  c : UInt8
  d : UInt8
deriving DecidableEq

/-- An address of eight groups. -/
structure LongAddress where
  groups : List UInt16
  length_eq : groups.length = 8
deriving DecidableEq

/-- An address. -/
inductive Address
  | short (address : ShortAddress)
  /-- The label of a flow is never written.  The number of the scope is zero when there is none. -/
  | long (address : LongAddress) (flow scope : UInt32)
deriving DecidableEq

/-- An address and a port. -/
structure Endpoint where
  address : Address
  port : UInt16
deriving DecidableEq

/-! ## Endpoints in the form in which they are compared -/

namespace LongAddress

/-- The short address that a long one stands for, if it does. -/
def mapped? (address : LongAddress) : Option ShortAddress :=
  match address.groups with
  | [0, 0, 0, 0, 0, 0xffff, g, h] =>
    some ⟨(g >>> 8).toUInt8, g.toUInt8, (h >>> 8).toUInt8, h.toUInt8⟩
  | _ => none

end LongAddress

/-- The same endpoint with a short address where it has one. -/
def Endpoint.normalized (e : Endpoint) : Endpoint :=
  match e.address with
  | .short _ => e
  | .long address _ _ =>
    match address.mapped? with
    | some short => ⟨.short short, e.port⟩
    | none => e

theorem Endpoint.normalized_normalized (e : Endpoint) : e.normalized.normalized = e.normalized := by
  cases h : e.address with
  | short => simp [normalized, h]
  | long address flow scope =>
    cases hm : address.mapped? with
    | none => simp [normalized, h, hm]
    | some short => simp [normalized, h, hm]

/-! ## Writing -/

/-- The four numbers with points between them. -/
def ShortAddress.text (s : ShortAddress) : String :=
  toString s.a.toNat ++ "." ++ toString s.b.toNat ++ "." ++ toString s.c.toNat ++ "." ++
    toString s.d.toNat

/-- The lower-case hexadecimal digits of a group, without leading zeros. -/
def groupText (g : UInt16) : String := String.ofList (Nat.toDigits 16 g.toNat)

/-- The length of the run of zeros at the front. -/
def zeroRun (groups : List UInt16) : Nat := (groups.takeWhile (· == 0)).length

/-- The position and length of the first longest run of zeros, from position `i` on. -/
def longestZeroRun (i : Nat) : List UInt16 → Nat × Nat
  | [] => (i, 0)
  | g :: rest =>
    let here := zeroRun (g :: rest)
    let later := longestZeroRun (i + 1) rest
    if later.2 ≤ here then (i, here) else later

/-- Groups with colons between them. -/
def groupsText (groups : List UInt16) : String := String.intercalate ":" (groups.map groupText)

/-- The shortest text of a long address: the first longest run of at least two zero groups is left
out, and an address that stands for a short one ends in its four numbers. -/
def LongAddress.text (address : LongAddress) : String :=
  match address.mapped? with
  | some short => "::ffff:" ++ short.text
  | none =>
    let (start, count) := longestZeroRun 0 address.groups
    if 1 < count then
      groupsText (address.groups.take start) ++ "::" ++
        groupsText (address.groups.drop (start + count))
    else groupsText address.groups

/-- The text of an endpoint. -/
def Endpoint.text (e : Endpoint) : String :=
  let host := match e.address with
    | .short address => address.text
    | .long address _ scope =>
      "[" ++ address.text ++ (if scope = 0 then "" else "%" ++ toString scope.toNat) ++ "]"
  host ++ ":" ++ toString e.port.toNat

/-! ## Reading -/

/-- A reader of the front of a text gives a value and the rest. -/
abbrev EndpointReader (α : Type) := List Char → Option (α × List Char)

namespace EndpointReader

/-- The value of a hexadecimal digit, in either case. -/
def hexValue? (c : Char) : Option Nat :=
  if '0' ≤ c ∧ c ≤ '9' then some (c.toNat - 48)
  else if 'a' ≤ c ∧ c ≤ 'f' then some (c.toNat - 87)
  else if 'A' ≤ c ∧ c ≤ 'F' then some (c.toNat - 55)
  else none

/-- This character. -/
def char (c : Char) : EndpointReader Unit
  | d :: rest => if d = c then some ((), rest) else none
  | [] => none

/-- The row of digits at the front and the rest. -/
def spanDigits (value? : Char → Option Nat) (cs : List Char) : List Nat × List Char :=
  ((cs.takeWhile fun c => (value? c).isSome).filterMap value?,
    cs.dropWhile fun c => (value? c).isSome)

/-- A decimal number below `bound`, with any number of leading zeros. -/
def decimal (bound : Nat) : EndpointReader Nat := fun cs =>
  let (digits, rest) := spanDigits digitValue? cs
  let n := digits.foldl (fun n d => n * 10 + d) 0
  if digits.isEmpty ∨ bound ≤ n then none else some (n, rest)

/-- A decimal number below 256 of at most three digits, without a leading zero. -/
def octet : EndpointReader UInt8 := fun cs =>
  let (digits, rest) := spanDigits digitValue? cs
  let n := digits.foldl (fun n d => n * 10 + d) 0
  if digits.isEmpty ∨ 3 < digits.length ∨ 256 ≤ n ∨ (1 < digits.length ∧ digits.head? = some 0) then
    none
  else some (UInt8.ofNat n, rest)

/-- A group of one to four hexadecimal digits. -/
def group : EndpointReader UInt16 := fun cs =>
  let (digits, rest) := spanDigits hexValue? cs
  if digits.isEmpty ∨ 4 < digits.length then none
  else some (UInt16.ofNat (digits.foldl (fun n d => n * 16 + d) 0), rest)

/-- Four numbers with points between them. -/
def short : EndpointReader ShortAddress := fun cs => do
  let (a, cs) ← octet cs
  let (_, cs) ← char '.' cs
  let (b, cs) ← octet cs
  let (_, cs) ← char '.' cs
  let (c, cs) ← octet cs
  let (_, cs) ← char '.' cs
  let (d, cs) ← octet cs
  some (⟨a, b, c, d⟩, cs)

/-- The reader behind a colon, except at the first group. -/
def afterColon {α : Type} (first : Bool) (read : EndpointReader α) : EndpointReader α := fun cs =>
  if first then read cs
  else do
    let (_, cs) ← char ':' cs
    read cs

/-- Up to `room` groups with colons between them, whether the last two were spelt as four numbers,
and the rest.  `first` says that no colon stands before the next group. -/
def groups : Nat → Bool → List Char → List UInt16 × Bool × List Char
  | 0, _, cs => ([], false, cs)
  | room + 1, first, cs =>
    match (if room = 0 then none else afterColon first short cs) with
    | some (s, rest) =>
      ([s.a.toUInt16 <<< 8 ||| s.b.toUInt16, s.c.toUInt16 <<< 8 ||| s.d.toUInt16], true, rest)
    | none =>
      match afterColon first group cs with
      | none => ([], false, cs)
      | some (g, rest) =>
        let (gs, dotted, rest) := groups room false rest
        (g :: gs, dotted, rest)

/-- Eight groups as an address. -/
def ofGroups? (gs : List UInt16) : Option LongAddress :=
  if h : gs.length = 8 then some ⟨gs, h⟩ else none

/-- A long address.  The double colon stands for at least one group, and no group before it is
spelt in numbers. -/
def long : EndpointReader LongAddress := fun cs => do
  let (head, dotted, cs) := groups 8 true cs
  if head.length = 8 then
    let address ← ofGroups? head
    some (address, cs)
  else if dotted then none
  else
    let (_, cs) ← char ':' cs
    let (_, cs) ← char ':' cs
    let (tail, _, cs) := groups (7 - head.length) true cs
    let address ← ofGroups? (head ++ List.replicate (8 - head.length - tail.length) 0 ++ tail)
    some (address, cs)

/-- A colon and a port. -/
def port : EndpointReader UInt16 := fun cs => do
  let (_, cs) ← char ':' cs
  let (n, cs) ← decimal UInt16.size cs
  some (UInt16.ofNat n, cs)

/-- An endpoint with a short address. -/
def shortEndpoint : EndpointReader Endpoint := fun cs => do
  let (address, cs) ← short cs
  let (port, cs) ← port cs
  some (⟨.short address, port⟩, cs)

/-- The number of a scope behind a percent sign, zero if there is none. -/
def scope (cs : List Char) : UInt32 × List Char :=
  match (do let (_, cs) ← char '%' cs; decimal UInt32.size cs) with
  | some (n, rest) => (UInt32.ofNat n, rest)
  | none => (0, cs)

/-- An endpoint with a long address in brackets. -/
def longEndpoint : EndpointReader Endpoint := fun cs => do
  let (_, cs) ← char '[' cs
  let (address, cs) ← long cs
  let (scope, cs) := scope cs
  let (_, cs) ← char ']' cs
  let (port, cs) ← port cs
  some (⟨.long address 0 scope, port⟩, cs)

end EndpointReader

/-- The endpoint that a text spells from end to end. -/
def Endpoint.ofText? (text : String) : Option Endpoint :=
  let cs := text.toList
  match (EndpointReader.shortEndpoint cs).orElse fun _ => EndpointReader.longEndpoint cs with
  | some (e, []) => some e
  | _ => none

/-- The text for a text that spells no endpoint. -/
def Endpoint.fault : String := "invalid socket address syntax"

end Torrent
