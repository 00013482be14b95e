import Torrent.Proofs.Descriptor.Tiling
import Torrent.Swarm.Basic

/-!
# What a download begins with

The queue of a new download holds each missing piece once
(`Swarm.missing_indices_nodup`), and no other (`Swarm.mem_missing`).  A sound
description of fewer than `UInt32.size` pieces has a piece for every number, so
there every number that the store lacks is queued (`Swarm.exists_missing`).
-/

namespace Torrent.Swarm

variable {d : Descriptor} {s : Store}

theorem toNat_ofNat_of_lt_mod {i n : Nat} (h : i < n % UInt32.size) :
    (UInt32.ofNat i).toNat = i := by
  rw [UInt32.toNat_ofNat']
  exact Nat.mod_eq_of_lt (Nat.lt_trans h (Nat.mod_lt _ (by decide)))

theorem mem_missing {spec : PieceSpec} :
    spec ∈ missing d s ↔ spec.index.toNat < d.pieceCount % UInt32.size ∧
      s.hasPiece spec.index = false ∧ d.piece? spec.index = some spec := by
  simp only [missing]
  simp only [List.mem_filterMap, List.mem_filter, List.mem_range, Bool.not_eq_true']
  constructor
  · rintro ⟨i, ⟨hi, hbit⟩, hspec⟩
    have hindex := Descriptor.index_of_piece? hspec
    rw [hindex, toNat_ofNat_of_lt_mod hi]
    exact ⟨hi, hbit, hspec⟩
  · rintro ⟨hi, hbit, hspec⟩
    refine ⟨spec.index.toNat, ⟨hi, ?_⟩, ?_⟩
    · rw [UInt32.ofNat_toNat]
      exact hbit
    · rw [UInt32.ofNat_toNat]
      exact hspec

/-- A missing piece has a number below the number of pieces. -/
theorem index_lt_of_mem_missing {spec : PieceSpec} (h : spec ∈ missing d s) :
    spec.index.toNat < d.pieceCount :=
  Nat.lt_of_lt_of_le (mem_missing.1 h).1 (Nat.mod_le _ _)

theorem missing_indices_nodup (d : Descriptor) (s : Store) :
    ((missing d s).map PieceSpec.index).Nodup := by
  simp only [missing, List.Nodup]
  rw [List.pairwise_map]
  have hrange : (List.range (d.pieceCount % UInt32.size)).Pairwise
      fun i j => UInt32.ofNat i ≠ UInt32.ofNat j := by
    refine List.pairwise_lt_range.imp_of_mem fun {i j} hi hj hij heq => ?_
    have := congrArg UInt32.toNat heq
    rw [toNat_ofNat_of_lt_mod (List.mem_range.1 hi),
      toNat_ofNat_of_lt_mod (List.mem_range.1 hj)] at this
    omega
  refine List.Pairwise.filterMap _ ?_ (hrange.filter _)
  intro i j hij a ha b hb
  rw [Descriptor.index_of_piece? ha, Descriptor.index_of_piece? hb]
  exact hij

theorem length_missing_le (d : Descriptor) (s : Store) :
    (missing d s).length ≤ d.pieceCount := by
  simp only [missing]
  refine Nat.le_trans (List.length_filterMap_le _ _) (Nat.le_trans (List.length_filter_le _ _) ?_)
  rw [List.length_range]
  exact Nat.mod_le _ _

theorem exists_missing (hd : d.Sound) (hcount : d.pieceCount < UInt32.size) {i : PieceIndex}
    (hi : i.toNat < d.pieceCount) (hbit : s.hasPiece i = false) :
    ∃ spec ∈ missing d s, spec.index = i := by
  obtain ⟨spec, hspec⟩ : ∃ spec, d.piece? i = some spec := ⟨_, hd.piece?_eq hi⟩
  obtain rfl := Descriptor.index_of_piece? hspec
  rw [← Nat.mod_eq_of_lt hcount] at hi
  exact ⟨spec, mem_missing.2 ⟨hi, hbit, hspec⟩, rfl⟩

end Torrent.Swarm
