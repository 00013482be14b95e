import Mathlib.Data.List.Range
import Torrent.Proofs.Store.Segments

/-!
# Segments partition their range

The segments of a range have the positions of the range, each once and in order
(`Walk.positions`): the main statement is `Store.segments_partition`.

The way through the files is also a loop over 64-bit words (`Scan`): a place in the
files, the part of the range that is left, and the segments found so far.  Each of
its differences can be taken, since a file is passed only if the range begins behind
it, and no segment is longer than what is left.  So the loop never stops, and ends
with the segments (`Scan.run?_eq`).
-/

namespace Torrent

namespace Walk

variable {file start length : Nat} {lengths : List Nat} {gs : List Segment}

/-- Behind a file, positions count from its end. -/
theorem positions_behind (size base : Nat) (rest : List Nat) (h : ∀ g ∈ gs, file + 1 ≤ g.file) :
    gs.flatMap (fun g =>
        List.range' (base + offset (size :: rest) (g.file - file) + g.start) g.length) =
      gs.flatMap fun g =>
        List.range' (base + size + offset rest (g.file - (file + 1)) + g.start) g.length := by
  refine List.flatMap_congr fun g hg => ?_
  rw [offset_eq size rest (h g hg), ← Nat.add_assoc base]

/-- The segments of a range one behind the other are the range, wherever the first of the files
begins. -/
theorem positions (h : Walk file lengths start length gs) (base : Nat) :
    gs.flatMap (fun g => List.range' (base + offset lengths (g.file - file) + g.start) g.length) =
      List.range' (base + start) length := by
  induction h generalizing base with
  | done => rfl
  | @pass file size start length rest gs hlength hbehind hrest ih =>
      have hmove : base + size + (start - size) = base + start := by omega
      rw [positions_behind size base rest hrest.spec.2.2, ih, hmove]
  | @take file size start length rest gs hlength hwithin hrest ih =>
      rw [List.flatMap_cons, positions_behind size base rest hrest.spec.2.2, ih]
      dsimp only
      rw [Nat.sub_self]
      show List.range' (base + 0 + start) _ ++ _ = _
      by_cases hlast : length ≤ size - start
      · rw [Nat.min_eq_right hlast, Nat.sub_self]
        simp
      · -- the next segment begins where the file ends
        have hnext : base + size + 0 = base + start + 1 * (size - start) := by omega
        have hsum : size - start + (length - (size - start)) = length := by omega
        rw [Nat.min_eq_left (by omega), hnext, Nat.add_zero, List.range'_append, hsum]

/-- A segment of a range has a byte at least, and lies inside its file. -/
theorem inside (h : Walk file lengths start length gs) {g : Segment} (hg : g ∈ gs) :
    0 < g.length ∧ ∃ size, lengths[g.file - file]? = some size ∧ g.start + g.length ≤ size := by
  have hlength := Bytes.length_zeros length
  rw [← fst_deal gs (Bytes.zeros length)] at hg
  obtain ⟨c, hc, rfl⟩ := List.mem_map.1 hg
  obtain ⟨p, size, -, -, hpos, -, hsize, hend⟩ := h.chunk hlength c hc
  exact ⟨hpos, size, hsize, hend⟩

end Walk

/-! ## The loop in words -/

/-- The difference of two words that is not below zero. -/
def difference? (a b : UInt64) : Option UInt64 := if b ≤ a then some (a - b) else none

theorem difference?_eq {a b : UInt64} (h : b.toNat ≤ a.toNat) :
    ∃ c, difference? a b = some c ∧ c.toNat = a.toNat - b.toNat := by
  have hle : b ≤ a := UInt64.le_iff_toNat_le.2 h
  refine ⟨a - b, ?_, UInt64.toNat_sub_of_le _ _ hle⟩
  rw [difference?, if_pos hle]

/-- A range on its way through the files. -/
structure Scan where
  /-- Where it begins in the file that is next. -/
  start : UInt64
  /-- How much of it is left. -/
  left : UInt64
  /-- The segments found, in order. -/
  found : List Segment

namespace Scan

/-- A file is passed, or gives a segment.  There is no answer where a difference would be below
zero. -/
def step? (s : Scan) (file : Nat) (size : UInt64) : Option Scan :=
  if size ≤ s.start then (difference? s.start size).map fun start => { s with start := start }
  else do
    let room ← difference? size s.start
    let here := min room s.left
    let left ← difference? s.left here
    return ⟨0, left, s.found ++ [⟨file, s.start.toNat, here.toNat⟩]⟩

/-- The files from number `file` on, until nothing of the range is left. -/
def run? : Nat → List UInt64 → Scan → Option Scan
  | _, [], s => some s
  | file, size :: rest, s =>
    if s.left = 0 then some s else (s.step? file size).bind (run? (file + 1) rest)

/-- The segments of the range, if all of it was found. -/
def answer? (s : Scan) : Option (List Segment) := if s.left = 0 then some s.found else none

variable {s : Scan} {size : UInt64}

/-- A file that the range begins behind is passed. -/
theorem step?_pass (file : Nat) (h : size.toNat ≤ s.start.toNat) :
    ∃ start, s.step? file size = some { s with start := start } ∧
      start.toNat = s.start.toNat - size.toNat := by
  obtain ⟨start, hstart, hnat⟩ := difference?_eq h
  refine ⟨start, ?_, hnat⟩
  rw [step?, if_pos (UInt64.le_iff_toNat_le.2 h), hstart]
  rfl

/-- A file that the range begins in gives a segment. -/
theorem step?_take (file : Nat) (h : s.start.toNat < size.toNat) :
    ∃ left, s.step? file size = some ⟨0, left, s.found ++
        [⟨file, s.start.toNat, min (size.toNat - s.start.toNat) s.left.toNat⟩]⟩ ∧
      left.toNat = s.left.toNat - min (size.toNat - s.start.toNat) s.left.toNat := by
  obtain ⟨room, hroom, hroomNat⟩ := difference?_eq (Nat.le_of_lt h)
  have hhere : (min room s.left).toNat = min (size.toNat - s.start.toNat) s.left.toNat := by
    rw [Store.toNat_min, hroomNat]
  have hle : (min room s.left).toNat ≤ s.left.toNat := hhere ▸ Nat.min_le_right _ _
  obtain ⟨left, hleft, hleftNat⟩ := difference?_eq hle
  have hwithin : ¬size ≤ s.start := fun hbehind =>
    Nat.not_le_of_lt h (UInt64.le_iff_toNat_le.1 hbehind)
  refine ⟨left, ?_, hhere ▸ hleftNat⟩
  rw [step?, if_neg hwithin, hroom, ← hhere]
  simp only [Option.bind_eq_bind, Option.bind_some, hleft]
  rfl

/-- The loop ends, and with the segments that numbers give. -/
theorem run?_eq (sizes : List UInt64) (file : Nat) (s : Scan) :
    ∃ last, run? file sizes s = some last ∧
      last.answer? = (segmentsFrom file (sizes.map UInt64.toNat) s.start.toNat s.left.toNat).map
        (s.found ++ ·) := by
  induction sizes generalizing file s with
  | nil =>
      refine ⟨s, rfl, ?_⟩
      unfold segmentsFrom
      by_cases hzero : s.left = 0
      · simp [answer?, hzero]
      · have hne : s.left.toNat ≠ 0 := fun hnat => hzero (UInt64.toNat_inj.1 hnat)
        simp [answer?, hzero, hne]
  | cons size rest ih =>
      rw [List.map_cons]
      unfold run? segmentsFrom
      by_cases hzero : s.left = 0
      · exact ⟨s, if_pos hzero, by simp [answer?, hzero]⟩
      have hne : s.left.toNat ≠ 0 := fun hnat => hzero (UInt64.toNat_inj.1 hnat)
      rw [if_neg hzero, if_neg hne]
      dsimp only
      by_cases hbehind : size.toNat ≤ s.start.toNat
      · obtain ⟨start, hstep, hstart⟩ := step?_pass file hbehind
        rw [hstep, if_pos hbehind, ← hstart]
        exact ih (file + 1) _
      · obtain ⟨left, hstep, hleft⟩ := step?_take file (Nat.lt_of_not_le hbehind)
        rw [hstep, if_neg hbehind, ← hleft]
        obtain ⟨last, hrun, hanswer⟩ := ih (file + 1) ⟨0, left, s.found ++
          [⟨file, s.start.toNat, min (size.toNat - s.start.toNat) s.left.toNat⟩]⟩
        refine ⟨last, hrun, ?_⟩
        rw [hanswer, Option.map_map]
        refine congrArg (Option.map · _) (funext fun gs => ?_)
        simp

end Scan

/-! ## The partition -/

/-- A range of the torrent has segments exactly if it ends inside the files.  They lie in files one
behind the other, each has a byte at least and lies inside its file, and taken back to the torrent
they are the positions of the range, one after the other.  No difference on the way is below zero,
and the empty range has no segments wherever it begins. -/
theorem Store.segments_partition (s : Store) (start length : UInt64) :
    (∃ last, Scan.run? 0 (s.slots.map Slot.length) ⟨start, length, []⟩ = some last ∧
      last.answer? = s.segments? start.toNat length.toNat) ∧
    s.segments? start.toNat 0 = some [] ∧
    (0 < length → ((s.segments? start.toNat length.toNat).isSome ↔
      start.toNat + length.toNat ≤ s.lengths.sum)) ∧
    ∀ gs, s.segments? start.toNat length.toNat = some gs →
      gs.Pairwise (fun g g' => g.file < g'.file) ∧
      (∀ g ∈ gs, 0 < g.length ∧
        ∃ size, s.lengths[g.file]? = some size ∧ g.start + g.length ≤ size) ∧
      gs.flatMap (fun g => List.range' (offset s.lengths g.file + g.start) g.length) =
        List.range' start.toNat length.toNat := by
  refine ⟨?_, ?_, fun hlength => ?_, fun gs hgs => ?_⟩
  · obtain ⟨last, hrun, hanswer⟩ := Scan.run?_eq (s.slots.map Slot.length) 0 ⟨start, length, []⟩
    refine ⟨last, hrun, ?_⟩
    rw [hanswer, List.map_map]
    exact Option.map_id'
  · exact (Walk.done 0 s.lengths start.toNat).segmentsFrom_eq
  · have hpos : length.toNat ≠ 0 := Nat.ne_of_gt (UInt64.lt_iff_toNat_lt.1 hlength)
    rw [Option.isSome_iff_exists]
    constructor
    · rintro ⟨gs, hgs⟩
      exact ((Walk.exists_iff 0 _ _ _).1 ⟨gs, .of_segmentsFrom hgs⟩).resolve_left hpos
    · intro hinside
      obtain ⟨gs, hwalk⟩ := (Walk.exists_iff 0 _ _ _).2 (.inr hinside)
      exact ⟨gs, hwalk.segmentsFrom_eq⟩
  · have hwalk : Walk 0 s.lengths start.toNat length.toNat gs := .of_segmentsFrom hgs
    refine ⟨hwalk.spec.2.1, fun g hg => hwalk.inside hg, ?_⟩
    simpa using hwalk.positions 0

/-- A range begins inside one file, passes over an empty one and ends with the last. -/
theorem Store.segments_partition_empty_file :
    let slots : List Slot := [⟨['a'], 3, none⟩, ⟨['b'], 0, none⟩, ⟨['c'], 2, none⟩]
    let s : Store := ⟨[], [], 4, 5, 2, slots, 0, false, ⟨[0]⟩⟩
    let gs : List Segment := [⟨0, 2, 1⟩, ⟨2, 0, 2⟩]
    s.segments? 2 3 = some gs ∧ 2 + 3 ≤ s.lengths.sum ∧
      gs.Pairwise (fun g g' => g.file < g'.file) ∧
      gs.flatMap (fun g => List.range' (offset s.lengths g.file + g.start) g.length) =
        List.range' 2 3 := by
  intro slots s gs
  obtain ⟨-, -, hsome, hparts⟩ := s.segments_partition 2 3
  have hgs : s.segments? 2 3 = some gs := by decide +kernel
  obtain ⟨hfiles, -, hpositions⟩ := hparts gs hgs
  exact ⟨hgs, (hsome (by decide)).1 (Option.isSome_iff_exists.2 ⟨gs, hgs⟩), hfiles, hpositions⟩

end Torrent
