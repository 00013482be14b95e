import Torrent.Bytes.Sha1

/-!
# The digest by its blocks and by numbers

A message is digested block by block, and what closes it depends on its length only.
So two messages of as many whole blocks that lead to one state have one digest, and
they keep it whatever follows behind both of them (`digest_append_of_blocks`).

The five words of a state are numbers below 2^32, and the rounds can be reckoned with
these.  Digests are compared that way where they are evaluated (`digest_eq_iff`).
-/

namespace Torrent.Sha1

variable {n : Nat} {a b : Bytes}

/-! ## Block by block -/

/-- The blocks of a message are turned one after the other. -/
theorem blocks_append (m : Nat) (ha : a.length = 64 * n) (s : State) :
    blocks (n + m) (a ++ b) s = blocks m b (blocks n a s) := by
  induction n generalizing a s with
  | zero =>
      obtain rfl := List.eq_nil_of_length_eq_zero ha
      rw [Nat.zero_add]
      rfl
  | succ n ih =>
      have hfirst : 64 ≤ a.length := by omega
      rw [Nat.succ_add, blocks, blocks, List.take_append_of_le_length hfirst,
        List.drop_append_of_le_length hfirst]
      exact ih (by rw [List.length_drop]; omega) _

/-- What closes a message of so many bytes. -/
def ending (length : Nat) : Bytes :=
  0x80 :: Bytes.zeros ((119 - length % 64) % 64) ++
    BigEndian.toBytes (UInt32.ofNat (8 * length / UInt32.size)) ++
    BigEndian.toBytes (UInt32.ofNat (8 * length))

theorem close_eq (message : Bytes) : close message = message ++ ending message.length := by
  simp only [close, ending, List.append_assoc]

/-- The digest of a message that begins with some whole blocks. -/
theorem digest_append (ha : a.length = 64 * n) (rest : Bytes) :
    digest (a ++ rest) =
      let behind := rest ++ ending (64 * n + rest.length)
      (blocks (behind.length / 64) behind (blocks n a start)).bytes := by
  have hclose : close (a ++ rest) = a ++ (rest ++ ending (64 * n + rest.length)) := by
    rw [close_eq, List.append_assoc, List.length_append, ha]
  rw [digest, hclose, List.length_append, ha, Nat.mul_add_div (by decide), blocks_append _ ha]

/-- Two messages that lead to one state by as many blocks have one digest, whatever follows. -/
theorem digest_append_of_blocks (ha : a.length = 64 * n) (hb : b.length = 64 * n)
    (hstate : blocks n a start = blocks n b start) (rest : Bytes) :
    digest (a ++ rest) = digest (b ++ rest) := by
  rw [digest_append ha, digest_append hb, hstate]

/-! ## By numbers -/

/-- The words of a state as numbers. -/
structure Numbers where
  a : Nat
  b : Nat
  c : Nat
  d : Nat
  e : Nat
deriving DecidableEq

def State.numbers (s : State) : Numbers :=
  ⟨s.a.toNat, s.b.toNat, s.c.toNat, s.d.toNat, s.e.toNat⟩

theorem State.numbers_inj {s s' : State} (h : s.numbers = s'.numbers) : s = s' := by
  cases s
  cases s'
  simpa [numbers, UInt32.toNat_inj] using h

namespace Numbers

def rotate (w n : Nat) : Nat := (w <<< n) % 4294967296 ||| w >>> (32 - n)

def round (s : Numbers) (i : Nat) (w : Nat) : Numbers :=
  let (f, k) : Nat × Nat :=
    if i < 20 then ((s.b &&& s.c) ||| ((4294967295 - s.b) &&& s.d), 0x5A827999)
    else if i < 40 then (s.b ^^^ s.c ^^^ s.d, 0x6ED9EBA1)
    else if i < 60 then ((s.b &&& s.c) ||| (s.b &&& s.d) ||| (s.c &&& s.d), 0x8F1BBCDC)
    else (s.b ^^^ s.c ^^^ s.d, 0xCA62C1D6)
  ⟨(rotate s.a 5 + f + s.e + k + w) % 4294967296, s.a, rotate s.b 30, s.c, s.d⟩

/-- A schedule with `n` further words, the newest first. -/
def extend : Nat → List Nat → List Nat
  | 0, ws => ws
  | n + 1, ws =>
    extend n (rotate (ws.getD 2 0 ^^^ ws.getD 7 0 ^^^ ws.getD 13 0 ^^^ ws.getD 15 0) 1 :: ws)

def rounds : Nat → List Nat → Numbers → Numbers
  | _, [], s => s
  | i, w :: ws, s => rounds (i + 1) ws (round s i w)

def block (s : Numbers) (ws : List Nat) : Numbers :=
  let t := rounds 0 (extend 64 ws.reverse).reverse s
  ⟨(s.a + t.a) % 4294967296, (s.b + t.b) % 4294967296, (s.c + t.c) % 4294967296,
    (s.d + t.d) % 4294967296, (s.e + t.e) % 4294967296⟩

def blocks : Nat → Bytes → Numbers → Numbers
  | 0, _, s => s
  | n + 1, bytes, s =>
    blocks n (bytes.drop 64) (block s ((words (bytes.take 64)).map (·.toNat)))

end Numbers

theorem numbers_round (s : State) (i : Nat) (w : UInt32) :
    (round s i w).numbers = s.numbers.round i w.toNat := by
  have hrotate (w : UInt32) : (rotate w 5).toNat = Numbers.rotate w.toNat 5 ∧
      (rotate w 30).toNat = Numbers.rotate w.toNat 30 := ⟨rfl, rfl⟩
  have hnot : (~~~s.b).toNat = 4294967295 - s.b.toNat := UInt32.toNat_not s.b
  simp only [round, State.numbers, Numbers.round, UInt32.toNat_add, hrotate, Nat.mod_add_mod]
  by_cases h20 : i < 20
  · simp [h20, hnot]
  by_cases h40 : i < 40
  · simp [h20, h40]
  by_cases h60 : i < 60
  · simp [h20, h40, h60]
  · simp [h20, h40, h60]

theorem numbers_rounds (i : Nat) (ws : List UInt32) (s : State) :
    (rounds i ws s).numbers = s.numbers.rounds i (ws.map (·.toNat)) := by
  induction ws generalizing i s with
  | nil => rfl
  | cons w ws ih => rw [rounds, ih, numbers_round, List.map_cons, Numbers.rounds]

/-- The schedule of numbers has the newest first. -/
theorem map_toNat_extend (n : Nat) (ws : Array UInt32) (h : 16 ≤ ws.size) :
    (extend n ws).toList.map (·.toNat) =
      (Numbers.extend n (ws.toList.map (·.toNat)).reverse).reverse := by
  induction n generalizing ws with
  | zero => rw [extend, Numbers.extend, List.reverse_reverse]
  | succ n ih =>
      have hback (k : Nat) (hk : k < 16) :
          (ws.toList.map (·.toNat)).reverse.getD k 0 = (ws.getD (ws.size - (k + 1)) 0).toNat := by
        have hlt : ws.size - (k + 1) < ws.size := by omega
        have hindex : ws.size - 1 - k = ws.size - (k + 1) := by omega
        rw [List.getD_eq_getElem?_getD, List.getElem?_reverse (by simp; omega), List.length_map,
          Array.length_toList, hindex, List.getElem?_map, Array.getElem?_toList,
          Array.getElem?_eq_getElem hlt, Array.getD_eq_getD_getElem?, Array.getElem?_eq_getElem hlt]
        rfl
      have hrotate (w : UInt32) : (rotate w 1).toNat = Numbers.rotate w.toNat 1 := rfl
      rw [extend, ih _ (by rw [Array.size_push]; omega), Numbers.extend, Array.toList_push,
        List.map_append, List.reverse_append, List.map_singleton, List.reverse_singleton,
        List.singleton_append, hrotate, UInt32.toNat_xor, UInt32.toNat_xor, UInt32.toNat_xor,
        hback 2 (by decide), hback 7 (by decide), hback 13 (by decide), hback 15 (by decide)]

theorem length_words (n : Nat) (bytes : Bytes) (h : bytes.length = 4 * n) :
    (words bytes).length = n := by
  induction n generalizing bytes with
  | zero =>
      obtain rfl := List.eq_nil_of_length_eq_zero h
      rfl
  | succ n ih =>
      match bytes, h with
      | a :: b :: c :: d :: rest, h =>
          rw [words, List.length_cons, ih rest (by simp only [List.length_cons] at h; omega)]

theorem numbers_block (s : State) (bytes : Bytes) (h : bytes.length = 64) :
    (block s bytes).numbers = s.numbers.block ((words bytes).map (·.toNat)) := by
  have hsize : 16 ≤ (words bytes).toArray.size := by
    simpa using Nat.le_of_eq (length_words 16 bytes h).symm
  have hrounds := numbers_rounds 0 (extend 64 (words bytes).toArray).toList s
  rw [map_toNat_extend 64 _ hsize] at hrounds
  simp only [block, Numbers.block]
  rw [← hrounds]
  generalize rounds 0 (extend 64 (words bytes).toArray).toList s = t
  simp only [State.numbers, UInt32.toNat_add, Nat.reducePow]

theorem numbers_blocks (n : Nat) (bytes : Bytes) (s : State) (h : 64 * n ≤ bytes.length) :
    (blocks n bytes s).numbers = s.numbers.blocks n bytes := by
  induction n generalizing bytes s with
  | zero => rfl
  | succ n ih =>
      rw [blocks, ih _ _ (by rw [List.length_drop]; omega), numbers_block _ _ (by
        rw [List.length_take]; omega), Numbers.blocks]

/-- The words of a state can be read off its bytes. -/
theorem State.words_bytes (s : State) : words s.bytes.bytes = [s.a, s.b, s.c, s.d, s.e] := by
  have hread (w : UInt32) : BigEndian.ofBytes (BigEndian.toBytes w ++ []) = w :=
    BigEndian.ofBytes_toBytes w []
  show [BigEndian.ofBytes (BigEndian.toBytes s.a ++ []),
    BigEndian.ofBytes (BigEndian.toBytes s.b ++ []),
    BigEndian.ofBytes (BigEndian.toBytes s.c ++ []),
    BigEndian.ofBytes (BigEndian.toBytes s.d ++ []),
    BigEndian.ofBytes (BigEndian.toBytes s.e ++ [])] = _
  simp only [hread]

theorem State.bytes_inj {s s' : State} (h : s.bytes = s'.bytes) : s = s' := by
  have hwords := congrArg (fun octets : Octets 20 => words octets.bytes) h
  simp only [words_bytes] at hwords
  cases s
  cases s'
  simpa using hwords

/-- The digest of a message by numbers. -/
def numbers (message : Bytes) : Numbers :=
  start.numbers.blocks ((close message).length / 64) (close message)

/-- Digests can be compared by numbers. -/
theorem digest_eq_iff {a b : Bytes} : digest a = digest b ↔ numbers a = numbers b := by
  have hnumbers (message : Bytes) :
      (Sha1.blocks ((close message).length / 64) (close message) start).numbers = numbers message :=
    numbers_blocks _ _ _ (Nat.mul_div_le _ _)
  rw [← hnumbers, ← hnumbers]
  exact ⟨fun h => congrArg State.numbers (State.bytes_inj h),
    fun h => congrArg State.bytes (State.numbers_inj h)⟩

end Torrent.Sha1
