import Mathlib.Data.List.Count
import Torrent.Bitfield

/-!
# Counted bits

The bits of a bitmap are counted byte by byte (`Bitfield.countFront_eq`).  A position is
looked up as a 32-bit word, so behind 2^32 positions the first ones come once more
(`Bitfield.count_eq_words`).

Up to there the count is the number of positions of the bitmap that are set
(`Bitfield.count_eq`, `Bitfield.countP_bit`).  Beyond, it is that number only if none of
the positions that come once more is set (`Bitfield.counted_positions`), and it can be more than
the bitmap has positions (`Bitfield.count_wraps`).
-/

namespace Torrent.Bitfield

/-- The bits of the first byte. -/
theorem bit_cons_of_lt (b : UInt8) (rest : Bytes) {i : Nat} (hi : i < 8) :
    (⟨b :: rest⟩ : Bitfield).bit i = bitOfByte b i := by
  rw [bit_eq]
  simp only [Nat.div_eq_of_lt hi, Nat.mod_eq_of_lt hi, List.getElem?_cons_zero]

/-- The bits behind the first byte. -/
theorem bit_cons_add (b : UInt8) (rest : Bytes) (i : Nat) :
    (⟨b :: rest⟩ : Bitfield).bit (8 + i) = (⟨rest⟩ : Bitfield).bit i := by
  have hdiv : (8 + i) / 8 = i / 8 + 1 := by omega
  have hmod : (8 + i) % 8 = i % 8 := by omega
  rw [bit_eq, bit_eq, hdiv, hmod]
  simp only [List.getElem?_cons_succ]

theorem countFront_eq (bytes : Bytes) (n : Nat) :
    countFront bytes n = (List.range n).countP (⟨bytes⟩ : Bitfield).bit := by
  induction bytes generalizing n with
  | nil =>
      rw [countFront, eq_comm, List.countP_eq_zero]
      intro i _
      simp [bit_eq]
  | cons b rest ih =>
      have hsplit : n = min n 8 + (n - 8) := by omega
      have hfirst : countByte b n =
          (List.range (min n 8)).countP (⟨b :: rest⟩ : Bitfield).bit := by
        rw [countByte, ← List.countP_eq_length_filter]
        refine List.countP_congr fun i hi => ?_
        have hlt : i < 8 := Nat.lt_of_lt_of_le (List.mem_range.1 hi) (Nat.min_le_right _ _)
        rw [bit_cons_of_lt b rest hlt]
      have hothers : countFront rest (n - 8) =
          ((List.range (n - 8)).map (min n 8 + ·)).countP (⟨b :: rest⟩ : Bitfield).bit := by
        rw [ih, List.countP_map]
        refine List.countP_congr fun i hi => ?_
        have hlong : min n 8 = 8 := by
          have := List.mem_range.1 hi
          omega
        simp only [Function.comp]
        rw [hlong, bit_cons_add]
      rw [countFront]
      split
      next hzero => simp [hzero]
      next =>
        conv_rhs => rw [hsplit, List.range_add, List.countP_append]
        rw [hfirst, hothers]

/-! ## Positions as words -/

/-- Positions below a size are looked up as they are. -/
theorem countP_mod_of_le (q : Nat → Bool) {n size : Nat} (h : n ≤ size) :
    (List.range n).countP (fun i => q (i % size)) = (List.range n).countP q :=
  List.countP_congr fun i hi => by
    rw [Nat.mod_eq_of_lt (Nat.lt_of_lt_of_le (List.mem_range.1 hi) h)]

/-- Looked up modulo a size, the positions come round, and each round counts the same. -/
theorem countP_rounds (q : Nat → Bool) (size rounds rest : Nat) :
    (List.range (rounds * size + rest)).countP (fun i => q (i % size)) =
      rounds * (List.range size).countP q + (List.range rest).countP fun i => q (i % size) := by
  induction rounds with
  | zero => rw [Nat.zero_mul, Nat.zero_mul, Nat.zero_add, Nat.zero_add]
  | succ rounds ih =>
      have hfirst := countP_mod_of_le q (Nat.le_refl size)
      have hothers : (fun i => q (i % size)) ∘ (size + ·) = fun i => q (i % size) := by
        funext i
        rw [Function.comp_apply, Nat.add_mod_left]
      have hsplit : (rounds + 1) * size + rest = size + (rounds * size + rest) := by
        rw [Nat.add_one_mul]
        omega
      rw [hsplit, List.range_add, List.countP_append, List.countP_map, hfirst, hothers, ih,
        Nat.add_one_mul]
      omega

theorem count_eq_rounds (f : Bitfield) (n : Nat) :
    f.count n = n / UInt32.size * (List.range UInt32.size).countP f.bit +
      (List.range (n % UInt32.size)).countP f.bit := by
  rw [count, countFront_eq, countFront_eq]

theorem has_ofNat (f : Bitfield) (i : Nat) :
    f.has (UInt32.ofNat i) = f.bit (i % UInt32.size) := by
  rw [has, UInt32.toNat_ofNat']

/-- Every position is looked up as a word. -/
theorem count_eq_words (f : Bitfield) (n : Nat) :
    f.count n = (List.range n).countP fun i => f.has (UInt32.ofNat i) := by
  have hrest : n % UInt32.size ≤ UInt32.size := Nat.le_of_lt (Nat.mod_lt n (by decide))
  simp only [has_ofNat]
  rw [count_eq_rounds, ← countP_mod_of_le f.bit hrest, ← countP_rounds, Nat.div_add_mod']

/-- As long as the positions are words, the count is the number of those whose bit is set. -/
theorem count_eq (f : Bitfield) {n : Nat} (hn : n ≤ UInt32.size) :
    f.count n = (List.range n).countP f.bit := by
  simp only [count_eq_words, has_ofNat]
  exact countP_mod_of_le f.bit hn

/-! ## Positions of the bitmap -/

/-- How many of the first `n` positions are in the bitmap and set. -/
def setAmong (f : Bitfield) (n : Nat) : Nat :=
  (List.range (min n (8 * f.bytes.length))).countP f.bit

section

variable {f : Bitfield} {p : UInt32} {n : Nat}

theorem bit_outside {i : Nat} (h : 8 * f.bytes.length ≤ i) : f.bit i = false := by
  have houtside : f.bytes.length ≤ i / 8 := by omega
  rw [bit_eq, List.getElem?_eq_none houtside]

/-- No position outside is set. -/
theorem countP_bit (f : Bitfield) (n : Nat) : (List.range n).countP f.bit = f.setAmong n := by
  have hsplit : n = min n (8 * f.bytes.length) + (n - 8 * f.bytes.length) := by omega
  have houtside : (List.range (n - 8 * f.bytes.length)).countP
      (f.bit ∘ (min n (8 * f.bytes.length) + ·)) = 0 := by
    refine List.countP_eq_zero.2 fun i hi => ?_
    have hlt := List.mem_range.1 hi
    rw [Function.comp_apply, bit_outside (by omega)]
    exact Bool.false_ne_true
  conv_lhs => rw [hsplit, List.range_add, List.countP_append, List.countP_map, houtside]
  rfl

theorem setAmong_le (f : Bitfield) (n : Nat) : f.setAmong n ≤ 8 * f.bytes.length := by
  refine Nat.le_trans List.countP_le_length ?_
  rw [List.length_range]
  exact Nat.min_le_right _ _

/-- Behind the end of the bitmap nothing more is set. -/
theorem setAmong_of_le (h : 8 * f.bytes.length ≤ n) :
    f.setAmong n = f.setAmong (8 * f.bytes.length) := by
  rw [setAmong, setAmong, Nat.min_eq_right h, Nat.min_self]

/-- A piece that was not there is one more, as soon as it is among the positions. -/
theorem countP_bit_insert (hinside : p.toNat < 8 * f.bytes.length)
    (hclear : f.bit p.toNat = false) (n : Nat) :
    (List.range n).countP (f.insert p).bit =
      (List.range n).countP f.bit + if p.toNat < n then 1 else 0 := by
  induction n with
  | zero => rfl
  | succ n ih =>
      have hreach : p.toNat / 8 < f.bytes.length := by omega
      rw [List.range_succ, List.countP_append, List.countP_append, ih, List.countP_singleton,
        List.countP_singleton, bit_insert]
      by_cases hself : n = p.toNat
      · subst hself
        simp [hclear, hreach]
      · have hlt : p.toNat < n + 1 ↔ p.toNat < n := by omega
        simp only [hself, false_and, decide_false, Bool.or_false, hlt]
        omega

/-- Such a piece is counted once in every round, and once more if the last round comes to it. -/
theorem count_insert (hinside : p.toNat < 8 * f.bytes.length) (hclear : f.bit p.toNat = false)
    (n : Nat) :
    (f.insert p).count n =
      f.count n + (n / UInt32.size + if p.toNat < n % UInt32.size then 1 else 0) := by
  have hword : p.toNat < UInt32.size := p.toNat_lt
  rw [count_eq_rounds, count_eq_rounds, countP_bit_insert hinside hclear,
    countP_bit_insert hinside hclear, if_pos hword, Nat.mul_add, Nat.mul_one]
  omega

/-- Behind 2^32 positions the first ones are counted once more. -/
theorem count_add_size (f : Bitfield) (n : Nat) :
    f.count (UInt32.size + n) = f.count UInt32.size + f.count n := by
  have hsize : 0 < UInt32.size := by decide
  rw [f.count_eq (Nat.le_refl _), count_eq_rounds, count_eq_rounds, Nat.add_div_left n hsize,
    Nat.add_mod_left, Nat.succ_mul]
  omega

/-- Nothing is counted just if nothing is set, in a bitmap all of whose positions are words. -/
theorem count_eq_zero_iff (hwords : 8 * f.bytes.length ≤ UInt32.size) :
    f.count n = 0 ↔ ∀ i < n, f.bit i = false := by
  rw [count_eq_words, List.countP_eq_zero]
  simp only [List.mem_range, has_ofNat, Bool.not_eq_true]
  constructor
  · intro hclear i hi
    by_cases hword : i < UInt32.size
    · rw [← hclear i hi, Nat.mod_eq_of_lt hword]
    · -- the position would be looked up as another one, but no bitmap of this size has it
      exact bit_outside (by omega)
  · intro hclear i hi
    exact hclear _ (Nat.lt_of_le_of_lt (Nat.mod_le i _) hi)

end

/-- What is counted among the first `n` positions.  Each is looked up as a word; the count is no
more than `n`, and with more positions it gets no less.  Up to 2^32 positions it is the number of
those that are in the bitmap and set, hence no more than the bitmap has; it stays the same behind
the end of the bitmap, and setting a clear position makes it one more.  For more positions it is
that number just if none of those that come once more is set, and a position that is set counts as
often as it comes. -/
theorem counted_positions (f : Bitfield) (n : Nat) :
    (f.count n = (List.range n).countP fun i => f.has (UInt32.ofNat i)) ∧
    f.count n ≤ n ∧
    (∀ m ≤ n, f.count m ≤ f.count n) ∧
    (n ≤ UInt32.size →
      f.count n = f.setAmong n ∧
      f.count n ≤ 8 * f.bytes.length ∧
      (∀ m ≤ n, 8 * f.bytes.length ≤ m → f.count m = f.count n) ∧
      ∀ p : UInt32, p.toNat < min n (8 * f.bytes.length) → f.bit p.toNat = false →
        (f.insert p).count n = f.count n + 1) ∧
    (8 * f.bytes.length ≤ UInt32.size →
      (f.count n = f.setAmong n ↔ ∀ i < n - UInt32.size, f.bit i = false)) ∧
    ∀ p : UInt32, p.toNat < 8 * f.bytes.length → f.bit p.toNat = false →
      (f.insert p).count n =
        f.count n + (n / UInt32.size + if p.toNat < n % UInt32.size then 1 else 0) := by
  have hexact : ∀ m ≤ UInt32.size, f.count m = f.setAmong m := fun m hm => by
    rw [f.count_eq hm, countP_bit]
  refine ⟨f.count_eq_words n, ?_, fun m hm => ?_, fun hn => ⟨hexact n hn, ?_, ?_, ?_⟩, ?_,
    fun p hinside hclear => count_insert hinside hclear n⟩
  · rw [count_eq_words]
    simpa using List.countP_le_length (l := List.range n)
  · rw [count_eq_words, count_eq_words]
    exact (List.range_sublist.2 hm).countP_le
  · rw [hexact n hn]
    exact f.setAmong_le n
  · intro m hm hend
    rw [hexact n hn, hexact m (Nat.le_trans hm hn), setAmong_of_le hend,
      setAmong_of_le (Nat.le_trans hend hm)]
  · intro p hp hclear
    obtain ⟨hfront, hinside⟩ := Nat.lt_min.1 hp
    rw [f.count_eq hn, count_eq _ hn, countP_bit_insert hinside hclear, if_pos hfront]
  · intro hwords
    by_cases hn : n ≤ UInt32.size
    · have hnone : n - UInt32.size = 0 := by omega
      simp [hexact n hn, hnone]
    · obtain ⟨more, rfl⟩ := Nat.exists_eq_add_of_le (Nat.le_of_not_le hn)
      have hbehind : 8 * f.bytes.length ≤ UInt32.size + more := by omega
      rw [count_add_size, hexact _ (Nat.le_refl _), setAmong_of_le hwords, setAmong_of_le hbehind,
        Nat.add_eq_left, count_eq_zero_iff hwords, Nat.add_sub_cancel_left]

/-- A clear position that is set, with fewer positions than the bitmap has, and with one more than
there are words. -/
theorem counted_positions_fifth :
    let f : Bitfield := ⟨[0xa3]⟩
    let m := UInt32.size + 1
    (5 ≤ UInt32.size ∧ 3 ≤ 5 ∧ (4 : UInt32).toNat < min 5 8 ∧ f.bit 4 = false) ∧
    f.count 5 = 2 ∧ f.count 5 = f.setAmong 5 ∧ f.count 3 ≤ f.count 5 ∧ (f.insert 4).count 5 = 3 ∧
    (f.count m = f.setAmong m ↔ ∀ i < m - UInt32.size, f.bit i = false) ∧
    (f.insert 4).count m = f.count m + 1 := by
  intro f m
  have hfew : 5 ≤ UInt32.size := by decide
  have hless : 3 ≤ 5 := by decide
  have hfront : (4 : UInt32).toNat < min 5 8 := by decide
  have hinside : (4 : UInt32).toNat < 8 := by decide
  have hclear : f.bit 4 = false := by decide
  have hcount : f.count 5 = 2 := by decide +kernel
  have hrounds : m / UInt32.size + (if (4 : UInt32).toNat < m % UInt32.size then 1 else 0) = 1 := by
    decide
  obtain ⟨-, -, hmono, hwords, -⟩ := counted_positions f 5
  obtain ⟨hexact, -, -, hset⟩ := hwords hfew
  obtain ⟨-, -, -, -, hround, hmore⟩ := counted_positions f m
  exact ⟨⟨hfew, hless, hfront, hclear⟩, hcount, hexact, hmono 3 hless,
    (hset 4 hfront hclear).trans (by rw [hcount]), hround (by decide),
    (hmore 4 hinside hclear).trans (by rw [hrounds])⟩

/-- With one position more than there are words, the first one counts twice.  So a bitmap can have
more counted than it has positions, and setting one position can make the count more by two. -/
theorem count_wraps :
    (⟨[0x80]⟩ : Bitfield).count (UInt32.size + 1) = 2 ∧
    (⟨[0x80]⟩ : Bitfield).setAmong (UInt32.size + 1) = 1 ∧
    (⟨[0xff]⟩ : Bitfield).count (UInt32.size + 8) = 16 ∧
    (⟨[0x00]⟩ : Bitfield).count (UInt32.size + 1) = 0 ∧
    ((⟨[0x00]⟩ : Bitfield).insert 0).count (UInt32.size + 1) = 2 := by
  decide +kernel

end Torrent.Bitfield
