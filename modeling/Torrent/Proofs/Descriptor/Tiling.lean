import Mathlib.Algebra.Ring.Nat
import Torrent.Descriptor.Basic

/-!
# Pieces of a sound description

A description that `Descriptor.check` accepts is cut into pieces without a gap:
every number below the number of pieces has a piece with at least one byte
(`Descriptor.Sound.piece?_eq`), and the pieces lie one behind the other
(`Descriptor.end_le_start`).  None of the products and differences involved
leaves the 64-bit words.
-/

namespace Torrent.Descriptor

/-- What `check` promises of a description. -/
structure Sound (d : Descriptor) : Prop where
  pieceLength_pos : 0 < d.pieceLength.toNat
  pieceLength_lt : d.pieceLength.toNat < UInt32.size
  totalLength_pos : 0 < d.totalLength.toNat
  pieceCount_eq :
    d.pieceCount = (d.totalLength.toNat + d.pieceLength.toNat - 1) / d.pieceLength.toNat
  files_sum : sumLengths d.files = d.totalLength

theorem sound_of_check {d : Descriptor} (h : d.check = .ok ()) : d.Sound := by
  unfold check at h
  dsimp only at h
  split at h
  · cases h
  next hpiece =>
    split at h
    · cases h
    next hshort =>
      split at h
      · cases h
      next htotal =>
        split at h
        · cases h
        next hcount =>
          split at h
          · cases h
          next =>
            split at h
            · cases h
            next hsum =>
              refine ⟨?_, Nat.lt_of_not_le hshort, ?_, by simpa using hcount, by simpa using hsum⟩
              · exact Nat.pos_of_ne_zero fun h0 => hpiece (UInt64.toNat_inj.1 h0)
              · exact Nat.pos_of_ne_zero fun h0 => htotal (UInt64.toNat_inj.1 h0)

/-- The sum of the lengths of files, taken in words. -/
theorem toNat_sumLengths (files : List FileSpan) :
    (sumLengths files).toNat = (files.map fun file => file.length.toNat).sum % UInt64.size := by
  have hfold : ∀ sum : UInt64, (files.foldl (fun sum file => sum + file.length) sum).toNat =
      (sum.toNat + (files.map fun file => file.length.toNat).sum) % UInt64.size := by
    induction files with
    | nil => exact fun sum => (Nat.mod_eq_of_lt sum.toNat_lt).symm
    | cons file rest ih =>
        intro sum
        rw [List.foldl_cons, ih, UInt64.toNat_add, List.map_cons, List.sum_cons, ← Nat.add_assoc]
        exact Nat.mod_add_mod _ _ _
  exact (hfold 0).trans (congrArg (· % UInt64.size) (Nat.zero_add _))

/-- The length of the piece with a number. -/
def lengthAt (d : Descriptor) (i : Nat) : Nat :=
  min d.pieceLength.toNat (d.totalLength.toNat - i * d.pieceLength.toNat)

theorem lengthAt_le (d : Descriptor) (i : Nat) : d.lengthAt i ≤ d.pieceLength.toNat :=
  Nat.min_le_left _ _

/-- A piece ends before the next one begins. -/
theorem end_le_start (d : Descriptor) {i j : Nat} (hij : i < j) :
    i * d.pieceLength.toNat + d.lengthAt i ≤ j * d.pieceLength.toNat := by
  have hle := d.lengthAt_le i
  have hmul := Nat.mul_le_mul_right d.pieceLength.toNat (Nat.succ_le_of_lt hij)
  rw [Nat.succ_mul] at hmul
  omega

/-- A piece is known by its number. -/
theorem index_of_piece? {d : Descriptor} {i : PieceIndex} {spec : PieceSpec}
    (h : d.piece? i = some spec) : spec.index = i := by
  simp only [piece?] at h
  split at h
  · cases h; rfl
  · cases h

theorem hash_of_piece? {d : Descriptor} {i : PieceIndex} {spec : PieceSpec}
    (h : d.piece? i = some spec) : d.pieceHashes[i.toNat]? = some spec.hash := by
  simp only [piece?] at h
  split at h
  next hhash hlength =>
    cases h
    exact hhash
  next => cases h

theorem length_of_piece? {d : Descriptor} {i : PieceIndex} {spec : PieceSpec}
    (h : d.piece? i = some spec) : d.pieceLen? i = some spec.length := by
  simp only [piece?] at h
  split at h
  next hhash hlength =>
    cases h
    exact hlength
  next => cases h

namespace Sound

variable {d : Descriptor} (hd : d.Sound)
include hd

/-- Every piece begins inside the torrent. -/
theorem start_lt {i : Nat} (hi : i < d.pieceCount) :
    i * d.pieceLength.toNat < d.totalLength.toNat := by
  rw [hd.pieceCount_eq] at hi
  have hpos := hd.pieceLength_pos
  have hle := (Nat.le_div_iff_mul_le hpos).1 (Nat.succ_le_of_lt hi)
  rw [Nat.succ_mul] at hle
  omega

theorem pieceCount_pos : 0 < d.pieceCount := by
  have := hd.totalLength_pos
  rw [hd.pieceCount_eq]
  exact Nat.div_pos (by omega) hd.pieceLength_pos

/-- Where a piece begins is within the words, also for a number behind the last one. -/
theorem start_lt_size (i : PieceIndex) : i.toNat * d.pieceLength.toNat < UInt64.size := by
  have hindex : i.toNat ≤ UInt32.size - 1 := Nat.le_pred_of_lt i.toNat_lt
  have hlength : d.pieceLength.toNat ≤ UInt32.size - 1 := Nat.le_pred_of_lt hd.pieceLength_lt
  exact Nat.lt_of_le_of_lt (Nat.mul_le_mul hindex hlength) (by decide)

theorem lengthAt_pos {i : Nat} (hi : i < d.pieceCount) : 0 < d.lengthAt i := by
  have := hd.start_lt hi
  have := hd.pieceLength_pos
  simp only [lengthAt]
  omega

theorem lengthAt_lt (i : Nat) : d.lengthAt i < UInt32.size :=
  Nat.lt_of_le_of_lt (d.lengthAt_le i) hd.pieceLength_lt

theorem pieceLen?_eq {i : PieceIndex} (hi : i.toNat < d.pieceCount) :
    d.pieceLen? i = some (UInt32.ofNat (d.lengthAt i.toNat)) := by
  have hstart := hd.start_lt hi
  have hsize := hd.start_lt_size i
  have hlength := hd.lengthAt_lt i.toNat
  simp only [lengthAt] at hlength ⊢
  unfold pieceLen?
  dsimp only
  rw [if_neg (by omega), if_pos hlength]

/-- Every number below the number of pieces has a piece. -/
theorem piece?_eq {i : PieceIndex} (hi : i.toNat < d.pieceCount) :
    d.piece? i = some ⟨i, d.pieceHashes[i.toNat], UInt32.ofNat (d.lengthAt i.toNat)⟩ := by
  simp only [piece?]
  rw [List.getElem?_eq_getElem hi, hd.pieceLen?_eq hi]

theorem toNat_length {i : Nat} : (UInt32.ofNat (d.lengthAt i)).toNat = d.lengthAt i := by
  rw [UInt32.toNat_ofNat']
  exact Nat.mod_eq_of_lt (hd.lengthAt_lt i)

/-- The files have room for the torrent: their sum is its length, or goes beyond the words. -/
theorem totalLength_le_sum :
    d.totalLength.toNat ≤ (d.files.map fun file => file.length.toNat).sum := by
  rw [← hd.files_sum, toNat_sumLengths]
  exact Nat.mod_le _ _

end Sound

end Torrent.Descriptor
