import Torrent.Bytes.Basic

/-!
# Stretches of byte strings

A block that is laid over a byte string is read back from there
(`Bytes.stretch_writeAt_self`), and what is there of other stretches stays
(`Bytes.stretch_writeAt_of_apart`).
-/

namespace Torrent

namespace Bytes

/-- The bytes of a stretch, as far as they are there. -/
def stretch (bytes : Bytes) (start length : Nat) : Bytes := (bytes.drop start).take length

theorem getElem?_stretch (bytes : Bytes) (start length i : Nat) :
    (bytes.stretch start length)[i]? = if i < length then bytes[start + i]? else none := by
  simp only [stretch]
  rw [List.getElem?_take]
  split
  next => rw [List.getElem?_drop]
  next => rfl

theorem length_slice {bytes : Bytes} {start length : Nat} (h : start + length ≤ bytes.length) :
    ((bytes.drop start).take length).length = length := by
  rw [List.length_take, List.length_drop]
  omega

/-- A stretch that is all there lies within the bytes. -/
theorem le_of_length_stretch {bytes : Bytes} {start length : Nat}
    (h : (bytes.stretch start length).length = length) (hlength : 0 < length) :
    start + length ≤ bytes.length := by
  simp only [stretch] at h
  rw [List.length_take, List.length_drop] at h
  omega

theorem getElem?_padTo (base : Bytes) (n i : Nat) :
    (base.padTo n)[i]? = if i < base.length then base[i]? else if i < n then some 0 else none := by
  simp only [padTo, zeros]
  split
  next hi => rw [List.getElem?_append_left hi]
  next hi =>
    rw [List.getElem?_append_right (Nat.le_of_not_lt hi), List.getElem?_replicate]
    have hsub : i - base.length < n - base.length ↔ i < n := by omega
    simp only [hsub]

/-- The bytes behind a write: the block where it was written, and else what was there. -/
theorem getElem?_writeAt {base : Bytes} {start : Nat} {block : Bytes} {i : Nat} :
    (base.writeAt start block)[i]? =
      if start ≤ i ∧ i < start + block.length then block[i - start]?
      else if i < base.length then base[i]?
      else if i < start then some 0 else none := by
  simp only [writeAt, overlay_eq]
  have hfront : ((base.padTo start).take start).length = start := by
    simp only [padTo, zeros]
    rw [List.length_take, List.length_append, List.length_replicate]
    omega
  by_cases hbefore : i < start
  · have hnot : ¬(start ≤ i ∧ i < start + block.length) := by omega
    rw [List.append_assoc, List.getElem?_append_left (by omega), List.getElem?_take,
      if_pos hbefore, getElem?_padTo, if_neg hnot]
  · by_cases hwithin : i < start + block.length
    · rw [List.append_assoc, List.getElem?_append_right (by omega), hfront,
        List.getElem?_append_left (by omega), if_pos ⟨by omega, hwithin⟩]
    · have hnot : ¬(start ≤ i ∧ i < start + block.length) := by omega
      have hindex : start + block.length + (i - (start + block.length)) = i := by omega
      rw [List.getElem?_append_right (by rw [List.length_append]; omega), List.length_append,
        hfront, List.getElem?_drop, getElem?_padTo, if_neg hnot, hindex]

/-- A byte that a write does not touch stays, zero where there is none. -/
theorem getD_writeAt_of_apart (base : Bytes) {start : Nat} {block : Bytes} {i : Nat}
    (hapart : start + block.length ≤ i ∨ i < start) :
    (base.writeAt start block).getD i 0 = base.getD i 0 := by
  rw [List.getD_eq_getElem?_getD, List.getD_eq_getElem?_getD, getElem?_writeAt, if_neg (by omega)]
  split
  next => rfl
  next hi =>
    rw [List.getElem?_eq_none (Nat.le_of_not_lt hi)]
    split
    next => rfl
    next => rfl

/-- What was written is read. -/
theorem stretch_writeAt_self (base : Bytes) (start : Nat) (block : Bytes) :
    (base.writeAt start block).stretch start block.length = block := by
  refine List.ext_getElem? fun i => ?_
  rw [getElem?_stretch, getElem?_writeAt]
  by_cases hi : i < block.length
  · rw [if_pos hi, if_pos ⟨by omega, by omega⟩, Nat.add_sub_cancel_left]
  · rw [if_neg hi, List.getElem?_eq_none (Nat.le_of_not_lt hi)]

/-- A stretch that is all there and that a write does not touch stays. -/
theorem stretch_writeAt_of_apart {base block : Bytes} {start from_ length : Nat}
    (hthere : (base.stretch from_ length).length = length)
    (hapart : start + block.length ≤ from_ ∨ from_ + length ≤ start) :
    (base.writeAt start block).stretch from_ length = base.stretch from_ length := by
  refine List.ext_getElem? fun i => ?_
  rw [getElem?_stretch, getElem?_stretch]
  split
  next hi =>
    have hle := le_of_length_stretch hthere (by omega)
    rw [getElem?_writeAt, if_neg (by omega), if_pos (by omega)]
  next => rfl

/-- Within the bytes, laying a block over them and writing it are the same. -/
theorem overlay_eq_writeAt {base block : Bytes} {start : Nat}
    (h : start + block.length ≤ base.length) :
    base.overlay start block = base.writeAt start block := by
  have hroom : start - base.length = 0 := by omega
  rw [writeAt, padTo, hroom, zeros, List.replicate_zero, List.append_nil]

/-- A block is read from where it was laid. -/
theorem stretch_overlay_self {base block : Bytes} {start : Nat}
    (h : start + block.length ≤ base.length) :
    (base.overlay start block).stretch start block.length = block := by
  rw [overlay_eq_writeAt h]
  exact stretch_writeAt_self base start block

/-- What is there already stays when a part of it is written once more. -/
theorem stretch_writeAt_take {base block : Bytes} {start : Nat}
    (hthere : base.stretch start block.length = block) (n : Nat) :
    (base.writeAt start (block.take n)).stretch start block.length = block := by
  refine List.ext_getElem? fun i => ?_
  rw [getElem?_stretch, getElem?_writeAt, List.length_take]
  split
  next hi =>
    have hold : base[start + i]? = block[i]? := by
      have hi' := congrArg (·[i]?) hthere
      simpa only [getElem?_stretch, if_pos hi] using hi'
    by_cases hn : i < n
    · rw [if_pos ⟨by omega, by omega⟩, Nat.add_sub_cancel_left, List.getElem?_take, if_pos hn]
    · have hlength := le_of_length_stretch (congrArg List.length hthere) (by omega)
      rw [if_neg (by omega), if_pos (by omega), hold]
  next hi => rw [List.getElem?_eq_none (Nat.le_of_not_lt hi)]

end Bytes

end Torrent
