import Torrent.Bitfield

/-!
# A bitmap is its bits

Pieces are put into a bitmap one after the other.  What comes of it depends only on
which pieces were put in: each adds its own bit if the bitmap reaches that far, and
touches no other (`Bitfield.bit_insertAll`).  Two bitmaps of one length with the same
bits are the same bytes (`Bitfield.ext_of_bit`), so the order of the pieces does not
matter, nor how often one of them comes (`Bitfield.put_in_any_order`).
-/

namespace Torrent

/-- A byte is its eight bits. -/
theorem byte_ext {b c : UInt8} (h : ∀ k < 8, bitOfByte b k = bitOfByte c k) : b = c := by
  refine UInt8.toNat_inj.1 (Nat.eq_of_testBit_eq fun k => ?_)
  by_cases hk : k < 8
  · have hbit := h (7 - k) (by omega)
    have hback : 7 - (7 - k) = k := by omega
    rwa [bitOfByte, bitOfByte, hback] at hbit
  · -- a byte has no bits beyond the eighth
    have hsmall : ∀ d : UInt8, d.toNat.testBit k = false := fun d =>
      Nat.testBit_lt_two_pow (Nat.lt_of_lt_of_le d.toNat_lt
        (Nat.pow_le_pow_right (by decide) (Nat.le_of_not_lt hk)))
    rw [hsmall, hsmall]

namespace Bitfield

/-- The bitmap with the pieces of a list put in, one after the other. -/
def insertAll (f : Bitfield) (pieces : List UInt32) : Bitfield := pieces.foldl insert f

section

variable {f g : Bitfield} {pieces others : List UInt32}

theorem insertAll_cons (f : Bitfield) (p : UInt32) (pieces : List UInt32) :
    f.insertAll (p :: pieces) = (f.insert p).insertAll pieces := rfl

theorem length_insertAll (f : Bitfield) (pieces : List UInt32) :
    (f.insertAll pieces).bytes.length = f.bytes.length := by
  induction pieces generalizing f with
  | nil => rfl
  | cons p pieces ih => rw [insertAll_cons, ih, length_insert]

/-- A position has a bit just if the bitmap reaches that far. -/
theorem bit?_eq (f : Bitfield) (i : Nat) :
    f.bit? i = if i / 8 < f.bytes.length then some (f.bit i) else none := by
  rw [bit, bit?]
  by_cases hi : i / 8 < f.bytes.length
  · rw [if_pos hi, List.getElem?_eq_getElem hi]
    rfl
  · rw [if_neg hi, List.getElem?_eq_none (Nat.le_of_not_lt hi)]
    rfl

/-- Putting pieces in sets their bits and no others. -/
theorem bit_insertAll (f : Bitfield) (pieces : List UInt32) (i : Nat) :
    (f.insertAll pieces).bit i = true ↔
      f.bit i = true ∨ (∃ p ∈ pieces, p.toNat = i) ∧ i / 8 < f.bytes.length := by
  induction pieces generalizing f with
  | nil => simp [insertAll]
  | cons p pieces ih =>
      rw [insertAll_cons, ih, bit_insert, length_insert, Bool.or_eq_true, decide_eq_true_eq]
      constructor
      · rintro ((hold | ⟨rfl, hreach⟩) | ⟨⟨q, hq, rfl⟩, hreach⟩)
        · exact .inl hold
        · exact .inr ⟨⟨p, List.mem_cons_self, rfl⟩, hreach⟩
        · exact .inr ⟨⟨q, List.mem_cons_of_mem p hq, rfl⟩, hreach⟩
      · rintro (hold | ⟨⟨q, hq, rfl⟩, hreach⟩)
        · exact .inl (.inl hold)
        · rcases List.mem_cons.1 hq with rfl | hq
          · exact .inl (.inr ⟨rfl, hreach⟩)
          · exact .inr ⟨⟨q, hq, rfl⟩, hreach⟩

/-- Bitmaps of one length with the same bits are the same. -/
theorem ext_of_bit (hlength : f.bytes.length = g.bytes.length)
    (hbits : ∀ i < 8 * f.bytes.length, f.bit i = g.bit i) : f = g := by
  obtain ⟨bs⟩ := f
  obtain ⟨cs⟩ := g
  congr 1
  refine List.ext_getElem hlength fun n hb hc => byte_ext fun k hk => ?_
  have hinside : 8 * n + k < 8 * bs.length := by omega
  have hbit := hbits (8 * n + k) hinside
  have hdiv : (8 * n + k) / 8 = n := by omega
  have hmod : (8 * n + k) % 8 = k := by omega
  rw [bit_eq, bit_eq, hdiv, hmod, List.getElem?_eq_getElem hb, List.getElem?_eq_getElem hc] at hbit
  exact hbit

/-- Only which pieces are put in matters, not their order or how often they come. -/
theorem insertAll_congr (h : ∀ p, p ∈ others ↔ p ∈ pieces) :
    f.insertAll others = f.insertAll pieces := by
  have hlength : (f.insertAll others).bytes.length = (f.insertAll pieces).bytes.length := by
    rw [length_insertAll, length_insertAll]
  refine ext_of_bit hlength fun i _ => Bool.eq_iff_iff.2 ?_
  rw [bit_insertAll, bit_insertAll]
  simp only [h]

end

/-- Pieces put into a bitmap: the length stays; a piece is there afterwards just if it was there
before or was put in and the bitmap reaches that far; every other position reads as before; and
pieces in any other order, or more than once, give the same bytes.  Bitmaps of one length are the
same just if they read the same at all of their positions. -/
theorem put_in_any_order (f : Bitfield) (pieces : List UInt32) :
    (f.insertAll pieces).bytes.length = f.bytes.length ∧
    (∀ j : UInt32, (f.insertAll pieces).has j = true ↔
      f.has j = true ∨ j ∈ pieces ∧ j.toNat / 8 < f.bytes.length) ∧
    (∀ i, (∀ p ∈ pieces, p.toNat ≠ i) → (f.insertAll pieces).bit? i = f.bit? i) ∧
    (∀ others : List UInt32, (∀ p, p ∈ others ↔ p ∈ pieces) →
      (f.insertAll others).bytes = (f.insertAll pieces).bytes) ∧
    ∀ g : Bitfield, f.bytes.length = g.bytes.length →
      (f.bytes = g.bytes ↔ ∀ i < 8 * f.bytes.length, f.bit? i = g.bit? i) := by
  refine ⟨length_insertAll f pieces, fun j => ?_, fun i hother => ?_, fun others hsame => ?_,
    fun g hlength => ⟨fun hbytes i _ => ?_, fun hread => ?_⟩⟩
  · rw [has, has, bit_insertAll]
    simp only [UInt32.toNat_inj, exists_eq_right]
  · have hbit : (f.insertAll pieces).bit i = f.bit i := by
      rw [Bool.eq_iff_iff, bit_insertAll]
      refine or_iff_left ?_
      rintro ⟨⟨p, hp, hi⟩, -⟩
      exact hother p hp hi
    rw [bit?_eq, bit?_eq, length_insertAll, hbit]
  · rw [insertAll_congr hsame]
  · rw [bit?, bit?, hbytes]
  · have hall : ∀ i < 8 * f.bytes.length, f.bit i = g.bit i := fun i hi => by
      rw [bit, bit, hread i hi]
    rw [ext_of_bit hlength hall]

/-- Two pieces of one byte, one of them twice, and one that is outside. -/
theorem put_in_any_order_one_byte :
    let f : Bitfield := ⟨[0x80, 0x01]⟩
    ((∀ p ∈ ([9, 40, 10, 9] : List UInt32), p.toNat ≠ 15) ∧
      (∀ p, p ∈ ([10, 9, 40] : List UInt32) ↔ p ∈ ([9, 40, 10, 9] : List UInt32)) ∧
      f.bytes.length = (f.insertAll [9]).bytes.length) ∧
    (f.insertAll [9, 40, 10, 9]).bytes = [0x80, 0x61] ∧
    (f.insertAll [9, 40, 10, 9]).bit? 15 = some true ∧
    (f.insertAll [10, 9, 40]).bytes = [0x80, 0x61] ∧
    f.bytes ≠ (f.insertAll [9]).bytes := by
  intro f
  have hnamed : ∀ p ∈ ([9, 40, 10, 9] : List UInt32), p.toNat ≠ 15 := by simp
  have hsame : ∀ p, p ∈ ([10, 9, 40] : List UInt32) ↔ p ∈ ([9, 40, 10, 9] : List UInt32) := by
    grind
  have hlength : f.bytes.length = (f.insertAll [9]).bytes.length := rfl
  obtain ⟨-, -, hothers, horder, hread⟩ := put_in_any_order f [9, 40, 10, 9]
  refine ⟨⟨hnamed, hsame, hlength⟩, by decide, hothers 15 hnamed, horder [10, 9, 40] hsame,
    fun hbytes => ?_⟩
  exact absurd ((hread _ hlength).1 hbytes 9 (by decide)) (by decide)

end Bitfield

end Torrent
