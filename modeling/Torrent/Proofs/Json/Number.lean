import Torrent.Descriptor.Json
import Torrent.Proofs.Json.Text

/-!
# Numbers written and read

A number is written in its decimal digits, which begin with a zero only for zero
(`zero_of_head?_toDigits`).  They are read back up to what closes the value
(`Reader.reads_natural`).
-/

namespace Torrent.Json

/-- A decimal digit as a byte. -/
def digitByte (c : Char) : UInt8 := UInt8.ofNat c.toNat

theorem toNat_of_isDigit {c : Char} (h : c.isDigit = true) : 0x30 ≤ c.toNat ∧ c.toNat ≤ 0x39 := by
  simp only [Char.isDigit, Bool.and_eq_true, decide_eq_true_eq, ge_iff_le,
    UInt32.le_iff_toNat_le] at h
  exact h

theorem utf8EncodeChar_of_isDigit {c : Char} (h : c.isDigit = true) :
    String.utf8EncodeChar c = [digitByte c] := by
  unfold String.utf8EncodeChar
  exact if_pos (Nat.le_trans (toNat_of_isDigit h).2 (by decide))

theorem toNat_digitByte {c : Char} (h : c.isDigit = true) : (digitByte c).toNat = c.toNat :=
  UInt8.toNat_ofNat_of_lt' (Nat.lt_of_le_of_lt (toNat_of_isDigit h).2 (by decide))

theorem isDigit_digitByte {c : Char} (h : c.isDigit = true) :
    Reader.isDigit (digitByte c) = true := by
  simp only [Reader.isDigit, Bool.and_eq_true, decide_eq_true_eq, UInt8.le_iff_toNat_le]
  rw [toNat_digitByte h]
  exact toNat_of_isDigit h

theorem le_ofDigitChars (chars : List Char) (n : Nat) : n ≤ Nat.ofDigitChars 10 chars n := by
  induction chars generalizing n with
  | nil => exact Nat.le_of_eq Nat.ofDigitChars_nil.symm
  | cons c chars ih =>
      rw [Nat.ofDigitChars_cons]
      exact Nat.le_trans (by omega) (ih _)

/-- Only zero has a zero as its first digit. -/
theorem zero_of_head?_toDigits {n : Nat} (h : (Nat.toDigits 10 n).head? = some '0') : n = 0 := by
  induction n using Nat.strongRecOn with
  | ind n ih =>
      rw [Nat.toDigits_eq_if (by decide)] at h
      split at h
      next hsmall => exact Nat.digitChar_eq_zero.1 (Option.some.inj h)
      next hlarge =>
        rw [List.head?_append_of_ne_nil _ Nat.toDigits_ne_nil] at h
        have hzero := ih (n / 10) (by omega) h
        omega

namespace Reader

variable {rest : Bytes} {n : Nat}

/-- Digits that stay below the bound are all gathered. -/
theorem gather_eq {bound : Nat} (chars : List Char) (hdigits : ∀ c ∈ chars, c.isDigit = true)
    (n count : Nat) (h : Nat.ofDigitChars 10 chars n < bound) :
    gather bound n count (chars.map digitByte) =
      (Nat.ofDigitChars 10 chars n, count + chars.length) := by
  induction chars generalizing n count with
  | nil => rfl
  | cons c chars ih =>
      have hdigit := hdigits c (List.mem_cons_self ..)
      rw [Nat.ofDigitChars_cons] at h ⊢
      have hnext : n * 10 + ((digitByte c).toNat - 0x30) = 10 * n + (c.toNat - '0'.toNat) := by
        rw [toNat_digitByte hdigit, Nat.mul_comm]
        rfl
      simp only [List.map_cons, gather]
      rw [hnext, if_pos (Nat.lt_of_le_of_lt (le_ofDigitChars chars _) h),
        ih (fun d hd => hdigits d (List.mem_cons_of_mem _ hd)) _ _ h, List.length_cons]
      congr 1
      omega

theorem Stops.not_isDigit (h : Stops rest) : ∀ b ∈ rest.head?, isDigit b = false := by
  rcases h with h | h | h | h
  all_goals
    rw [h]
    rintro b ⟨⟩
  all_goals rfl

theorem ne_of_isDigit {b : UInt8} (h : isDigit b = true) : isSpace b = false ∧ b ≠ 0x2d := by
  have hall : ∀ k : Fin 0x100, isDigit (UInt8.ofNat k) = true →
      isSpace (UInt8.ofNat k) = false ∧ UInt8.ofNat k ≠ 0x2d := by
    decide +kernel
  have hb := hall ⟨b.toNat, b.toNat_lt⟩
  rw [UInt8.ofNat_toNat] at hb
  exact hb h

theorem takes_digits {ds : List UInt8} (hdigits : ∀ d ∈ ds, isDigit d = true)
    (hrest : ∀ b ∈ rest.head?, isDigit b = false) : Takes digits ds rest ds := by
  intro c hc
  have hfront : c.rest.takeWhile isDigit = ds := by
    rw [hc.rest, List.takeWhile_append_of_pos hdigits]
    cases rest with
    | nil => exact List.append_nil ds
    | cons b rest =>
        rw [List.takeWhile_cons_of_neg (by simp [hrest b rfl]), List.append_nil]
  refine ⟨c.jump ds.length, ?_, hc.jump⟩
  show EStateM.Result.ok (c.rest.takeWhile isDigit) (c.jump (c.rest.takeWhile isDigit).length) = _
  rw [hfront]

/-- Behind the digits of a whole number its value is over. -/
theorem takes_rest (h : Stops rest) (n : Nat) :
    Takes (number.rest true n) [] rest (.natural (UInt64.ofNat n)) := by
  refine .peek ?_
  rw [List.nil_append]
  rcases h with h | h | h | h
  all_goals
    rw [h]
    exact .pure _ rest

/-- Zero is written as a single digit, and no digit may follow it. -/
theorem takes_zero (hrest : Stops rest) :
    Takes (number true) [0x30] rest (.natural 0) := by
  refine .take (.peek ?_)
  have hend := takes_rest hrest 0
  rw [List.nil_append]
  rcases hrest with h | h | h | h
  all_goals
    rw [h]
    exact hend

/-- The decimal digits of a number spell it. -/
theorem takes_number (hn : n < UInt64.size) (hrest : Stops rest) :
    Takes (number true) ((Nat.toDigits 10 n).map digitByte) rest
      (.natural (UInt64.ofNat n)) := by
  have hdigits : ∀ c ∈ Nat.toDigits 10 n, c.isDigit = true := fun c hc =>
    Nat.isDigit_of_mem_toDigits (by decide) (by decide) hc
  have hvalue : Nat.ofDigitChars 10 (Nat.toDigits 10 n) 0 = n := Nat.ofDigitChars_ten_toDigits
  by_cases hzero : n = 0
  · subst hzero
    rw [Nat.toDigits_zero]
    exact takes_zero hrest
  have hhead := mt (zero_of_head?_toDigits (n := n)) hzero
  obtain ⟨c, cs, hcs⟩ := List.exists_cons_of_ne_nil (Nat.toDigits_ne_nil (n := n) (b := 10))
  rw [hcs] at hdigits hvalue hhead ⊢
  have hdigit := hdigits c (List.mem_cons_self ..)
  have hlater : ∀ d ∈ cs, d.isDigit = true := fun d hd => hdigits d (List.mem_cons_of_mem _ hd)
  have hbytes : ∀ d ∈ cs.map digitByte, isDigit d = true := by
    intro d hd
    obtain ⟨e, he, rfl⟩ := List.mem_map.1 hd
    exact isDigit_digitByte (hlater e he)
  have hnonzero : digitByte c ≠ 0x30 := by
    intro heq
    have hchar := congrArg UInt8.toNat heq
    rw [toNat_digitByte hdigit] at hchar
    exact hhead (congrArg some (Char.toNat_inj.1 hchar))
  rw [Nat.ofDigitChars_cons, Nat.mul_zero, Nat.zero_add] at hvalue
  have hgather : gather UInt64.size ((digitByte c).toNat - 0x30) 0 (cs.map digitByte) =
      (n, 0 + cs.length) := by
    rw [toNat_digitByte hdigit]
    have hall := gather_eq cs hlater (c.toNat - '0'.toNat) 0 (hvalue.symm ▸ hn)
    rwa [hvalue] at hall
  refine .take ?_
  dsimp only
  rw [isDigit_digitByte hdigit, if_neg (by decide), if_neg hnonzero]
  refine (takes_digits hbytes hrest.not_isDigit).followed ?_
  rw [hgather]
  dsimp only
  rw [List.length_map, Nat.zero_add, if_pos rfl]
  exact takes_rest hrest n

theorem numberJson_eq (n : UInt64) :
    Descriptor.numberJson n = (Nat.toDigits 10 n.toNat).map digitByte := by
  have hdigits : ∀ c ∈ Nat.toDigits 10 n.toNat, String.utf8EncodeChar c = [digitByte c] :=
    fun c hc => utf8EncodeChar_of_isDigit (Nat.isDigit_of_mem_toDigits (by decide) (by decide) hc)
  rw [Descriptor.numberJson, Nat.toString_eq_ofList_toDigits, Bytes.ofText_ofList,
    List.flatMap_congr hdigits]
  exact List.flatMap_pure_eq_map _ _

/-- A number below 2^64 is read as it was written. -/
theorem reads_natural (n : UInt64) : Reads natural (Descriptor.numberJson n) n := by
  intro rest hrest
  have hnumber := takes_number n.toNat_lt hrest
  rw [UInt64.ofNat_toNat] at hnumber
  rw [numberJson_eq]
  obtain ⟨c, cs, hcs⟩ :=
    List.exists_cons_of_ne_nil (Nat.toDigits_ne_nil (n := n.toNat) (b := 10))
  have hdigit : c.isDigit = true :=
    Nat.isDigit_of_mem_toDigits (by decide) (by decide) (hcs ▸ List.mem_cons_self ..)
  obtain ⟨hspace, hminus⟩ := ne_of_isDigit (isDigit_digitByte hdigit)
  rw [hcs] at hnumber ⊢
  refine .value hspace ?_
  rw [if_neg hminus, if_pos (isDigit_digitByte hdigit)]
  exact hnumber.followed (.pure n rest)

end Reader

end Torrent.Json
