import Torrent.Bytes.Basic

/-!
# Hexadecimal text

Hashes are shown and stored as lower-case hexadecimal digits, two to a byte.
Reading takes either case.  A text of an odd length is refused before one of the
wrong length, and that before one with a character that is no digit.
`decode_encode` reads back what is shown.
-/

namespace Torrent.Hex

/-- The digit of a value below sixteen. -/
def digit (n : Nat) : UInt8 := if n < 10 then UInt8.ofNat (48 + n) else UInt8.ofNat (87 + n)

/-- The value of a digit, in either case. -/
def value? (c : UInt8) : Option Nat :=
  if 48 ≤ c.toNat ∧ c.toNat ≤ 57 then some (c.toNat - 48)
  else if 97 ≤ c.toNat ∧ c.toNat ≤ 102 then some (c.toNat - 87)
  else if 65 ≤ c.toNat ∧ c.toNat ≤ 70 then some (c.toNat - 55)
  else none

/-- The digits of a byte string, as ASCII bytes. -/
def digits (bytes : Bytes) : Bytes :=
  bytes.flatMap fun b => [digit (b.toNat / 16), digit (b.toNat % 16)]

/-- The digits of a byte string, as text. -/
def encode (bytes : Bytes) : String :=
  String.ofList ((digits bytes).map fun d => Char.ofNat d.toNat)

/-- Why a text is not the hexadecimal form of a field. -/
inductive Fault
  | oddLength
  | wrongLength
  /-- The byte at this position is no digit. -/
  | badDigit (byte : UInt8) (position : Nat)
deriving DecidableEq

/-- The bytes that digits from position `pos` on spell. -/
def decodeFrom (pos : Nat) : Bytes → Except Fault Bytes
  | hi :: lo :: rest =>
    match value? hi with
    | none => .error (.badDigit hi pos)
    | some h =>
      match value? lo with
      | none => .error (.badDigit lo (pos + 1))
      | some l =>
        match decodeFrom (pos + 2) rest with
        | .error e => .error e
        | .ok bytes => .ok (UInt8.ofNat (16 * h + l) :: bytes)
  | _ => .ok []

/-- The field of `n` bytes that a text of digits spells. -/
def decode (n : Nat) (text : Bytes) : Except Fault (Octets n) :=
  if text.length % 2 ≠ 0 then .error .oddLength
  else if text.length / 2 ≠ n then .error .wrongLength
  else
    match decodeFrom 0 text with
    | .error e => .error e
    | .ok bytes =>
      match Octets.ofBytes? n bytes with
      | some field => .ok field
      | none => .error .wrongLength

theorem value?_digit {n : Nat} (h : n < 16) : value? (digit n) = some n := by
  have all : ∀ k : Fin 16, value? (digit k) = some k.1 := by decide
  exact all ⟨n, h⟩

theorem length_digits (bytes : Bytes) : (digits bytes).length = 2 * bytes.length := by
  induction bytes with
  | nil => rfl
  | cons b bytes ih =>
    simp only [digits, List.flatMap_cons, List.length_append, List.length_cons, List.length_nil] at ih ⊢
    omega

theorem decodeFrom_digits (bytes : Bytes) :
    ∀ pos : Nat, decodeFrom pos (digits bytes) = .ok bytes := by
  induction bytes with
  | nil => intro _; rfl
  | cons b bytes ih =>
    intro pos
    have hb := b.toNat_lt
    have key : digits (b :: bytes) = digit (b.toNat / 16) :: digit (b.toNat % 16) :: digits bytes := rfl
    have back : 16 * (b.toNat / 16) + b.toNat % 16 = b.toNat := by omega
    rw [key, decodeFrom, value?_digit (by omega), value?_digit (by omega)]
    simp only [ih, back, UInt8.ofNat_toNat]

theorem decode_digits {n : Nat} (field : Octets n) : decode n (digits field.bytes) = .ok field := by
  have hlen := length_digits field.bytes
  rw [field.length_eq] at hlen
  rw [decode, if_neg (by omega), if_neg (by omega), decodeFrom_digits]
  simp

end Torrent.Hex
