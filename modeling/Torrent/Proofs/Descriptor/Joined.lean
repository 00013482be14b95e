import Torrent.Proofs.Descriptor.Tiling

/-!
# The bytes of a torrent

The pieces of a torrent one behind the other are its bytes (`Descriptor.joined`).
They are as many as the total length says, every position lies in one of the pieces
(`Descriptor.Sound.exists_piece`), and the byte there is that of the piece
(`Descriptor.Sound.getElem?_joined`).
-/

namespace Torrent.Descriptor

/-- The pieces of a torrent one behind the other. -/
def joined (d : Descriptor) (data : Nat → Bytes) : Bytes :=
  (List.range d.pieceCount).flatMap data

namespace Sound

variable {d : Descriptor} {data : Nat → Bytes} {k p : Nat}

/-- The pieces reach to the end of the torrent. -/
theorem totalLength_le (hd : d.Sound) :
    d.totalLength.toNat ≤ d.pieceCount * d.pieceLength.toNat := by
  have hpos := hd.pieceLength_pos
  have hdiv := Nat.div_add_mod (d.totalLength.toNat + d.pieceLength.toNat - 1) d.pieceLength.toNat
  have hmod := Nat.mod_lt (d.totalLength.toNat + d.pieceLength.toNat - 1) hpos
  rw [← hd.pieceCount_eq, Nat.mul_comm] at hdiv
  omega

/-- Every position of the torrent lies in a piece. -/
theorem exists_piece (hd : d.Sound) {pos : Nat} (hpos : pos < d.totalLength.toNat) :
    ∃ k p, k < d.pieceCount ∧ p < d.lengthAt k ∧ k * d.pieceLength.toNat + p = pos := by
  have hlength := hd.pieceLength_pos
  have hdiv := Nat.div_add_mod pos d.pieceLength.toNat
  have hmod := Nat.mod_lt pos hlength
  rw [Nat.mul_comm] at hdiv
  refine ⟨pos / d.pieceLength.toNat, pos % d.pieceLength.toNat, ?_, ?_, hdiv⟩
  · refine Nat.div_lt_of_lt_mul ?_
    rw [Nat.mul_comm]
    exact Nat.lt_of_lt_of_le hpos hd.totalLength_le
  · simp only [lengthAt]
    omega

/-- The first pieces reach to the next one, or to the end of the torrent. -/
theorem length_front (hdata : ∀ k < d.pieceCount, (data k).length = d.lengthAt k) {n : Nat}
    (hn : n ≤ d.pieceCount) :
    ((List.range n).flatMap data).length = min (n * d.pieceLength.toNat) d.totalLength.toNat := by
  induction n with
  | zero => simp
  | succ n ih =>
      rw [List.range_succ, List.flatMap_append, List.length_append, ih (by omega), Nat.succ_mul]
      simp only [List.flatMap_cons, List.flatMap_nil, List.append_nil]
      rw [hdata n hn]
      simp only [lengthAt]
      omega

theorem length_joined (hd : d.Sound)
    (hdata : ∀ k < d.pieceCount, (data k).length = d.lengthAt k) :
    (d.joined data).length = d.totalLength.toNat := by
  simp only [joined]
  rw [length_front hdata (Nat.le_refl _)]
  exact Nat.min_eq_right hd.totalLength_le

/-- The bytes of a torrent are those of its pieces. -/
theorem getElem?_joined (hd : d.Sound)
    (hdata : ∀ k < d.pieceCount, (data k).length = d.lengthAt k) (hk : k < d.pieceCount)
    (hp : p < d.lengthAt k) :
    (d.joined data)[k * d.pieceLength.toNat + p]? = (data k)[p]? := by
  -- the pieces behind the one with the byte add nothing in front of it
  have hfront : ∀ n, k < n → n ≤ d.pieceCount →
      ((List.range n).flatMap data)[k * d.pieceLength.toNat + p]? = (data k)[p]? := by
    intro n hkn hn
    induction n with
    | zero => cases hkn
    | succ n ih =>
        have hlength := length_front hdata (Nat.le_of_succ_le hn)
        have hstart := hd.start_lt hn
        rw [List.range_succ, List.flatMap_append]
        simp only [List.flatMap_cons, List.flatMap_nil, List.append_nil]
        rcases Nat.lt_or_eq_of_le (Nat.le_of_lt_succ hkn) with hlt | rfl
        · have hend := d.end_le_start hlt
          rw [List.getElem?_append_left (by omega)]
          exact ih hlt (Nat.le_of_succ_le hn)
        · rw [List.getElem?_append_right (by omega), hlength]
          congr 1
          omega
  exact hfront d.pieceCount hk (Nat.le_refl _)

end Sound

end Torrent.Descriptor
