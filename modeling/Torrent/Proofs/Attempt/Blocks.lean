import Mathlib.Data.List.Nodup
import Mathlib.Data.List.Perm.Subperm
import Torrent.Proofs.Bytes.Stretch
import Torrent.Wire.Payload

/-!
# Blocks of a piece

Blocks that lie in a piece and have no position in common cover the piece exactly
when their lengths add up to its length (`covers_iff`).  So counting bytes tells
when a piece is complete.

Such blocks are laid into a buffer in any order with the same result
(`Block.foldl_laid_perm`).
-/

namespace Torrent

/-- A block of a piece. -/
structure Block where
  /-- Where it starts in the piece. -/
  start : Nat
  bytes : Bytes

namespace Block

/-- The positions in the piece that a block has bytes for. -/
def positions (b : Block) : List Nat := List.range' b.start b.bytes.length

/-- Two blocks have no position in common. -/
def Apart (a b : Block) : Prop := a.positions.Disjoint b.positions

theorem mem_positions {b : Block} {p : Nat} :
    p ∈ b.positions ↔ b.start ≤ p ∧ p < b.start + b.bytes.length := by
  rw [positions, List.mem_range'_1]

/-- Blocks that have bytes and no position in common lie one behind the other. -/
theorem Apart.ordered {a b : Block} (h : a.Apart b) (ha : 0 < a.bytes.length)
    (hb : 0 < b.bytes.length) :
    a.start + a.bytes.length ≤ b.start ∨ b.start + b.bytes.length ≤ a.start := by
  by_contra hnot
  -- The later one of the two starts is a position of both.
  refine h (a := max a.start b.start) ?_ ?_
  · rw [mem_positions]
    omega
  · rw [mem_positions]
    omega

end Block

/-- The positions that blocks have bytes for. -/
def positionsOf (blocks : List Block) : List Nat := blocks.flatMap Block.positions

/-- Blocks have bytes for all of the first `n` positions. -/
def Covers (blocks : List Block) (n : Nat) : Prop := ∀ p < n, p ∈ positionsOf blocks

variable {blocks : List Block} {n : Nat}

theorem positionsOf_append (front back : List Block) :
    positionsOf (front ++ back) = positionsOf front ++ positionsOf back :=
  List.flatMap_append

theorem length_positionsOf_singleton (b : Block) : (positionsOf [b]).length = b.bytes.length := by
  rw [positionsOf, List.flatMap_singleton, Block.positions, List.length_range']

theorem positionsOf_subset (hfits : ∀ b ∈ blocks, b.start + b.bytes.length ≤ n) :
    positionsOf blocks ⊆ List.range n := by
  intro p hp
  obtain ⟨b, hb, hmem⟩ := List.mem_flatMap.1 hp
  have := Block.mem_positions.1 hmem
  have := hfits b hb
  rw [List.mem_range]
  omega

theorem nodup_positionsOf (hapart : blocks.Pairwise Block.Apart) : (positionsOf blocks).Nodup :=
  List.nodup_flatMap.2 ⟨fun _ _ => List.nodup_range', hapart⟩

/-- Blocks that lie in a piece and have no position in common are not longer than the piece. -/
theorem length_positionsOf_le (hapart : blocks.Pairwise Block.Apart)
    (hfits : ∀ b ∈ blocks, b.start + b.bytes.length ≤ n) : (positionsOf blocks).length ≤ n := by
  have hsub := List.subperm_of_subset (nodup_positionsOf hapart) (positionsOf_subset hfits)
  have hle := hsub.length_le
  rwa [List.length_range] at hle

/-- Blocks that lie in a piece and have no position in common cover it exactly if they are as long as
the piece. -/
theorem covers_iff (hapart : blocks.Pairwise Block.Apart)
    (hfits : ∀ b ∈ blocks, b.start + b.bytes.length ≤ n) :
    Covers blocks n ↔ n ≤ (positionsOf blocks).length := by
  constructor
  · intro h
    have hsub : List.range n ⊆ positionsOf blocks := fun p hp => h p (List.mem_range.1 hp)
    have hle := (List.subperm_of_subset List.nodup_range hsub).length_le
    rwa [List.length_range] at hle
  · intro h p hp
    have hsub := List.subperm_of_subset (nodup_positionsOf hapart) (positionsOf_subset hfits)
    have hperm := hsub.perm_of_length_le (by rwa [List.length_range])
    exact hperm.mem_iff.2 (List.mem_range.2 hp)

/-- A block that has no position in common with blocks that cover the piece has no bytes. -/
theorem Covers.eq_nil {b : Block} (h : Covers blocks n) (hapart : ∀ a ∈ blocks, a.Apart b)
    (hfits : b.start + b.bytes.length ≤ n) : b.bytes = [] := by
  by_contra hne
  have hpos : 0 < b.bytes.length := List.length_pos_iff.2 hne
  obtain ⟨a, ha, hmem⟩ := List.mem_flatMap.1 (h b.start (by omega))
  exact hapart a ha hmem (Block.mem_positions.2 (by omega))

/-! ## Blocks in a buffer -/

namespace Block

/-- The buffer has the bytes of a block in its place. -/
def Lies (b : Block) (buffer : Bytes) : Prop :=
  buffer.stretch b.start b.bytes.length = b.bytes

variable {a b : Block} {buffer : Bytes}

theorem lies_of_nil (h : b.bytes = []) (buffer : Bytes) : b.Lies buffer := by
  rw [Lies, h]
  rfl

theorem Lies.getElem? (h : b.Lies buffer) {k : Nat} (hk : k < b.bytes.length) :
    buffer[b.start + k]? = b.bytes[k]? := by
  have hget := congrArg (·[k]?) h
  simpa only [Bytes.getElem?_stretch, if_pos hk] using hget

/-- A block lies where it was laid. -/
theorem lies_overlay (h : b.start + b.bytes.length ≤ buffer.length) :
    b.Lies (buffer.overlay b.start b.bytes) := Bytes.stretch_overlay_self h

/-- A block stays when another is laid that has no position in common with it. -/
theorem Lies.overlay (ha : a.Lies buffer) (hapart : a.Apart b)
    (h : b.start + b.bytes.length ≤ buffer.length) :
    a.Lies (buffer.overlay b.start b.bytes) := by
  by_cases hanil : a.bytes = []
  · exact lies_of_nil hanil _
  by_cases hbnil : b.bytes = []
  · rw [hbnil, Bytes.overlay_eq, List.append_nil, List.length_nil, Nat.add_zero,
      List.take_append_drop]
    exact ha
  have hordered := hapart.ordered (List.length_pos_iff.2 hanil) (List.length_pos_iff.2 hbnil)
  rw [Lies, Bytes.overlay_eq_writeAt h,
    Bytes.stretch_writeAt_of_apart (congrArg List.length ha) hordered.symm]
  exact ha

/-- The byte that a block has for a position. -/
def byteAt? (b : Block) (p : Nat) : Option UInt8 :=
  if b.start ≤ p then b.bytes[p - b.start]? else none

theorem byteAt?_eq_none_iff {p : Nat} : b.byteAt? p = none ↔ p ∉ b.positions := by
  rw [mem_positions, byteAt?]
  split
  next => rw [List.getElem?_eq_none_iff]; omega
  next hbefore => simp only [hbefore, false_and, not_false_eq_true]

/-- A block that is laid over a buffer gives its own bytes and leaves the others. -/
theorem getElem?_overlay (h : b.start + b.bytes.length ≤ buffer.length) (p : Nat) :
    (buffer.overlay b.start b.bytes)[p]? = (b.byteAt? p).or buffer[p]? := by
  rw [Bytes.overlay_eq_writeAt h, Bytes.getElem?_writeAt, byteAt?]
  by_cases hstart : b.start ≤ p
  · by_cases hend : p < b.start + b.bytes.length
    · have hbyte : p - b.start < b.bytes.length := by omega
      rw [if_pos ⟨hstart, hend⟩, if_pos hstart, List.getElem?_eq_getElem hbyte, Option.some_or]
    · have hpast : b.bytes[p - b.start]? = none := List.getElem?_eq_none (by omega)
      rw [if_neg fun hin => hend hin.2, if_pos hstart, hpast, Option.none_or,
        if_neg (Nat.not_lt.2 hstart)]
      split
      next => rfl
      next hout => exact (List.getElem?_eq_none (Nat.le_of_not_lt hout)).symm
  · have hin : p < buffer.length := by omega
    rw [if_neg hstart, if_neg fun h => hstart h.1, if_pos hin, Option.none_or]

/-- A buffer with a block laid over it. -/
def laid (buffer : Bytes) (b : Block) : Bytes := buffer.overlay b.start b.bytes

theorem Apart.symm (h : a.Apart b) : b.Apart a := fun _ hb ha => h ha hb

/-- Of two blocks that have no position in common it is no matter which one is laid first. -/
theorem laid_comm (hapart : a.Apart b) (ha : a.start + a.bytes.length ≤ buffer.length)
    (hb : b.start + b.bytes.length ≤ buffer.length) :
    laid (laid buffer a) b = laid (laid buffer b) a := by
  have hab : b.start + b.bytes.length ≤ (buffer.overlay a.start a.bytes).length :=
    (Bytes.length_overlay ha).symm ▸ hb
  have hba : a.start + a.bytes.length ≤ (buffer.overlay b.start b.bytes).length :=
    (Bytes.length_overlay hb).symm ▸ ha
  refine List.ext_getElem? fun p => ?_
  simp only [laid]
  rw [getElem?_overlay hab, getElem?_overlay hba, getElem?_overlay ha, getElem?_overlay hb]
  by_cases hp : p ∈ a.positions
  · have hnone : b.byteAt? p = none := byteAt?_eq_none_iff.2 fun hp' => hapart hp hp'
    rw [hnone, Option.none_or, Option.none_or]
  · have hnone : a.byteAt? p = none := byteAt?_eq_none_iff.2 hp
    rw [hnone, Option.none_or, Option.none_or]

/-- Blocks that have no position in common may be laid in any order. -/
theorem foldl_laid_perm {blocks blocks' : List Block} (hperm : blocks.Perm blocks')
    (hapart : blocks.Pairwise Apart)
    (hfits : ∀ b ∈ blocks, b.start + b.bytes.length ≤ buffer.length) :
    blocks.foldl laid buffer = blocks'.foldl laid buffer := by
  induction hperm generalizing buffer with
  | nil => rfl
  | cons b _ ih =>
      have hroom : (laid buffer b).length = buffer.length :=
        Bytes.length_overlay (hfits b List.mem_cons_self)
      rw [List.foldl_cons, List.foldl_cons]
      refine ih hapart.of_cons fun b' hb' => ?_
      rw [hroom]
      exact hfits b' (List.mem_cons_of_mem b hb')
  | swap a b rest =>
      have hba : b.Apart a := List.rel_of_pairwise_cons hapart List.mem_cons_self
      rw [List.foldl_cons, List.foldl_cons, List.foldl_cons, List.foldl_cons, laid_comm hba
        (hfits b List.mem_cons_self) (hfits a (List.mem_cons_of_mem b List.mem_cons_self))]
  | trans h _ ih ih' =>
      rw [ih hapart hfits]
      exact ih' (h.pairwise hapart fun h => h.symm) fun b hb => hfits b (h.mem_iff.2 hb)

end Block

end Torrent
