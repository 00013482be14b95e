import Mathlib.Data.List.Dedup
import Torrent.Proofs.Attempt.Turns

/-!
# Counting what comes

An attempt counts the bytes of the blocks that come and does not mark where they
lie.  It ends when as many bytes came as the piece is long.  Each byte of its
buffer is then the last one that came for its position, or the zero it began with
where none came, and no more positions are left out than bytes came again
(`Connection.fetch_counts`).  So nothing is left out where no two blocks meet.

A block that comes twice does end an attempt early
(`Connection.fetch_block_twice`).

`Attempt.Counted` is the invariant of the loop.
-/

namespace Torrent

/-- What something came to, unless it failed or never ended. -/
def Result.value? {α : Type} : Result α → Option α
  | .ok a => some a
  | .error _ => none
  | .never => none

theorem Result.value?_eq_some_iff {α : Type} {result : Result α} {a : α} :
    result.value? = some a ↔ result = .ok a := by
  cases result <;> simp [value?]

/-! ## The bytes of blocks that may meet -/

/-- The byte that came last for a position. -/
def lastAt? (blocks : List Block) (p : Nat) : Option UInt8 :=
  blocks.reverse.findSome? (·.byteAt? p)

/-- The first `n` positions that blocks have no bytes for. -/
def leftOut (blocks : List Block) (n : Nat) : List Nat :=
  (List.range n).filter (· ∉ positionsOf blocks)

/-- How many bytes of blocks came for a position that had one. -/
def repeated (blocks : List Block) : Nat :=
  (positionsOf blocks).length - (positionsOf blocks).dedup.length

variable {blocks : List Block} {n : Nat}

theorem lastAt?_concat (blocks : List Block) (b : Block) (p : Nat) :
    lastAt? (blocks ++ [b]) p = (b.byteAt? p).or (lastAt? blocks p) := by
  rw [lastAt?, List.reverse_append, List.reverse_singleton, List.singleton_append,
    List.findSome?_cons]
  cases b.byteAt? p <;> rfl

theorem lastAt?_eq_none_iff {p : Nat} : lastAt? blocks p = none ↔ p ∉ positionsOf blocks := by
  rw [lastAt?, List.findSome?_eq_none_iff, positionsOf, List.mem_flatMap]
  simp only [List.mem_reverse, Block.byteAt?_eq_none_iff, not_exists, not_and]

/-- Every position of a piece has bytes or is left out. -/
theorem length_dedup_add_leftOut (hfits : ∀ b ∈ blocks, b.start + b.bytes.length ≤ n) :
    (positionsOf blocks).dedup.length + (leftOut blocks n).length = n := by
  have hcovered : (positionsOf blocks).dedup.Perm
      ((List.range n).filter (· ∈ positionsOf blocks)) := by
    refine (List.perm_ext_iff_of_nodup (List.nodup_dedup _)
      (List.nodup_range.filter _)).2 fun p => ?_
    rw [List.mem_dedup, List.mem_filter, decide_eq_true_iff]
    exact ⟨fun hp => ⟨positionsOf_subset hfits hp, hp⟩, And.right⟩
  have hsplit := List.length_eq_length_filter_add (l := List.range n)
    fun p => decide (p ∈ positionsOf blocks)
  rw [hcovered.length_eq, leftOut]
  simp only [List.length_range] at hsplit
  simpa only [decide_not] using hsplit.symm

/-- Blocks that are together as long as the piece leave out no more positions than bytes came
again. -/
theorem length_leftOut_le (hfits : ∀ b ∈ blocks, b.start + b.bytes.length ≤ n)
    (hmany : n ≤ (positionsOf blocks).length) :
    (leftOut blocks n).length ≤ repeated blocks := by
  have hall := length_dedup_add_leftOut hfits
  rw [repeated]
  omega

/-! ## One attempt -/

namespace Attempt

/-- An attempt at a piece that took these blocks, which may meet.  It counted no more than their
bytes, and its buffer has the last byte that came for each position. -/
structure Counted (spec : PieceSpec) (taken : List Block) (a : Attempt) : Prop where
  spec_eq : a.spec = spec
  room : a.buffer.length = spec.length.toNat
  within : ∀ b ∈ taken, b.start + b.bytes.length ≤ spec.length.toNat
  count : a.downloaded.toNat ≤ (positionsOf taken).length
  bytes : ∀ p < spec.length.toNat, a.buffer[p]? = some ((lastAt? taken p).getD 0)

variable {spec : PieceSpec} {a : Attempt} {taken : List Block}

theorem counted_start (spec : PieceSpec) (blockSize : UInt32) :
    (start spec blockSize).Counted spec [] where
  spec_eq := rfl
  room := Bytes.length_zeros _
  within := by simp only [List.not_mem_nil, false_implies, implies_true]
  count := Nat.zero_le _
  bytes := by
    intro p hp
    simp only [start, Bytes.zeros]
    rw [List.getElem?_replicate, if_pos hp]
    rfl

/-- What was taken does not depend on what was asked for. -/
theorem Counted.of_same {a' : Attempt} (h : a.Counted spec taken) (hspec : a'.spec = a.spec)
    (hbuffer : a'.buffer = a.buffer) (hdownloaded : a'.downloaded = a.downloaded) :
    a'.Counted spec taken where
  spec_eq := hspec.trans h.spec_eq
  room := hbuffer ▸ h.room
  within := h.within
  count := hdownloaded ▸ h.count
  bytes := hbuffer ▸ h.bytes

/-- A block that fits is laid over what came before it. -/
theorem Counted.block (h : a.Counted spec taken) {b : Block}
    (hwithin : b.start + b.bytes.length ≤ spec.length.toNat) :
    (a.afterBlock b).Counted spec (taken ++ [b]) := by
  have hfits : b.start + b.bytes.length ≤ a.buffer.length := h.room ▸ hwithin
  refine ⟨h.spec_eq, (Bytes.length_overlay hfits).trans h.room, ?_, ?_, ?_⟩
  · intro b' hb'
    rcases List.mem_append.1 hb' with hb' | hb'
    · exact h.within b' hb'
    · rw [List.mem_singleton.1 hb']
      exact hwithin
  · -- The count may wrap, and only gets smaller by it.
    have hcount := h.count
    rw [positionsOf_append, List.length_append, length_positionsOf_singleton]
    simp only [afterBlock]
    rw [UInt32.toNat_add, UInt32.toNat_ofNat']
    omega
  · intro p hp
    show (a.buffer.overlay b.start b.bytes)[p]? = _
    rw [Block.getElem?_overlay hfits, h.bytes p hp, lastAt?_concat]
    cases b.byteAt? p <;> rfl

/-- The block of a message that suits the piece is taken. -/
theorem Counted.afterMessage (h : a.Counted spec taken) {m : Message} (hsuits : m.Suits spec) :
    (a.afterMessage m).Counted spec (taken ++ m.brought?.toList) := by
  rw [Attempt.afterMessage]
  cases hbrought : m.brought? with
  | none =>
      rw [Option.toList_none, List.append_nil]
      exact h
  | some b => exact h.block (hsuits.within b hbrought)

/-- An attempt that is done counted as many bytes as the piece is long. -/
theorem Counted.length_le (h : a.Counted spec taken) (hdone : a.isDone = true) :
    spec.length.toNat ≤ (positionsOf taken).length := by
  have hle : a.spec.length ≤ a.downloaded := of_decide_eq_true hdone
  rw [UInt32.le_iff_toNat_le, h.spec_eq] at hle
  exact Nat.le_trans hle h.count

end Attempt

namespace Connection

variable {c : Connection} {spec : PieceSpec} {a : Attempt} {taken : List Block}

/-! ## All turns -/

/-- A piece was fetched after some blocks were taken: messages that suit the piece were read, and
with their blocks as many bytes came as the piece is long. -/
def Finishes (c : Connection) (spec : PieceSpec) (taken : List Block) (data : Bytes)
    (after : Connection) : Prop :=
  ∃ ms : List Message,
    c.stream.incoming = ms.flatMap Frame.encode ++ after.stream.incoming ∧
    (∀ m ∈ ms, m.Readable c.limit ∧ m.Suits spec) ∧
    data.length = spec.length.toNat ∧
    (∀ b ∈ taken ++ blocksOf ms, b.start + b.bytes.length ≤ spec.length.toNat) ∧
    spec.length.toNat ≤ (positionsOf (taken ++ blocksOf ms)).length ∧
    ∀ p < spec.length.toNat, data[p]? = some ((lastAt? (taken ++ blocksOf ms) p).getD 0)

/-- In turns, messages are read that suit the piece, and their blocks are taken. -/
theorem Turns.counted {moments : Nat → Moment} {k : Nat} {ms : List Message} {c' : Connection}
    {a' : Attempt} (h : Turns moments k c a ms c' a') (hcounted : a.Counted spec taken) :
    c'.limit = c.limit ∧ c.stream.incoming = ms.flatMap Frame.encode ++ c'.stream.incoming ∧
      (∀ m ∈ ms, m.Readable c.limit ∧ m.Suits spec) ∧
      a'.Counted spec (taken ++ blocksOf ms) := by
  induction h with
  | start =>
      refine ⟨rfl, rfl, by simp, ?_⟩
      rw [blocksOf_nil, List.append_nil]
      exact hcounted
  | @turn ms m c₁ c₂ a₁ a₂ hturns hturn ih =>
      obtain ⟨hlimit, hin, hall, hcounted₁⟩ := ih
      obtain ⟨-, hlimit', hreadable, hin', hsuits, a₃, hspec, hbuffer, hcount, rfl⟩ :=
        hturn.effect (hcounted₁.spec_eq.symm ▸ hcounted₁.room)
      rw [hcounted₁.spec_eq] at hsuits
      refine ⟨hlimit'.trans hlimit, ?_, ?_, ?_⟩
      · rw [hin, hin', List.flatMap_append, List.flatMap_singleton, List.append_assoc]
      · intro m' hm'
        rcases List.mem_append.1 hm' with hm' | hm'
        · exact hall m' hm'
        · obtain rfl := List.mem_singleton.1 hm'
          exact ⟨hlimit ▸ hreadable, hsuits⟩
      · rw [blocksOf_append, blocksOf_singleton, ← List.append_assoc]
        exact (hcounted₁.of_same hspec hbuffer hcount).afterMessage hsuits

/-- Fetching that ends with a buffer ends because enough bytes came. -/
theorem fetchWithin_finishes (moments : Nat → Moment) {n k : Nat} {data : Bytes}
    {after : Connection} (h : a.Counted spec taken)
    (hok : c.fetchWithin moments n k a = (.ok data, after)) :
    c.Finishes spec taken data after := by
  obtain ⟨ms, c', a', hturns, ⟨hdone, hfetched⟩ | hnot⟩ :=
    exists_turns_of_fetchWithin c moments n k a
  · rw [hfetched] at hok
    cases hok
    obtain ⟨-, hin, hall, hcounted⟩ := hturns.counted h
    exact ⟨ms, hin, hall, hcounted.room, hcounted.within, hcounted.length_le hdone,
      hcounted.bytes⟩
  · exact absurd (congrArg Prod.fst hok) (hnot data)

/-- What fetching a piece gives when it gives a buffer.  Only messages that suit the piece were
read, and as many bytes came in blocks as the piece is long.  Each byte is the last one that came
for its position, or the zero it began with where none came.  No more positions were left out than
bytes came again, and none if no two blocks meet. -/
theorem fetch_counts (c : Connection) (moments : Nat → Moment) (spec : PieceSpec)
    (blockSize : UInt32) (data : Bytes)
    (hok : (c.fetch moments (.start spec blockSize)).1 = .ok data) :
    let after := (c.fetch moments (.start spec blockSize)).2
    ∃ ms : List Message,
      c.stream.incoming = ms.flatMap Frame.encode ++ after.stream.incoming ∧
      (∀ m ∈ ms, m.Readable c.limit ∧ m.Suits spec) ∧
      data.length = spec.length.toNat ∧
      (∀ p < spec.length.toNat, ∀ byte, lastAt? (blocksOf ms) p = some byte →
        data[p]? = some byte) ∧
      (∀ p ∈ leftOut (blocksOf ms) spec.length.toNat, data[p]? = some 0) ∧
      spec.length.toNat ≤ (positionsOf (blocksOf ms)).length ∧
      (leftOut (blocksOf ms) spec.length.toNat).length ≤ repeated (blocksOf ms) ∧
      ((blocksOf ms).Pairwise Block.Apart → Covers (blocksOf ms) spec.length.toNat) := by
  intro after
  obtain ⟨ms, hread, hall, hlength, hfits, hmany, hbytes⟩ := fetchWithin_finishes moments
    (Attempt.counted_start spec blockSize) (Prod.ext hok rfl)
  rw [List.nil_append] at hfits hmany hbytes
  refine ⟨ms, hread, hall, hlength, ?_, ?_, hmany, length_leftOut_le hfits hmany,
    fun hapart => (covers_iff hapart hfits).2 hmany⟩
  · intro p hp byte hlast
    rw [hbytes p hp, hlast, Option.getD_some]
  · intro p hp
    obtain ⟨hrange, hout⟩ := List.mem_filter.1 hp
    have hnone := lastAt?_eq_none_iff.2 (of_decide_eq_true hout)
    rw [hbytes p (List.mem_range.1 hrange), hnone, Option.getD_none]

/-- Two blocks meet in one position, where the later one is kept. -/
theorem fetch_counts_two_blocks :
    let wire : List Message := [.piece 3 0 [1, 2, 3], .keepAlive, .piece 3 2 [4, 5, 6]]
    let session : Session := .opened ⟨.short ⟨127, 0, 0, 1⟩, 6881⟩ ⟨.zero 20⟩ ⟨[]⟩ 0
    let arrivals : List Arrival := wire.map fun m => .bytes (Frame.encode m)
    let c : Connection := ⟨session, .start arrivals .silent none none, 64⟩
    let spec : PieceSpec := ⟨3, .zero 20, 5⟩
    let done := c.fetch (fun k => ⟨fun _ => none, k⟩) (.start spec 2)
    let data : Bytes := [1, 2, 4, 5, 6]
    done.1 = .ok data ∧
      ∃ ms : List Message,
        c.stream.incoming = ms.flatMap Frame.encode ++ done.2.stream.incoming ∧
        (∀ m ∈ ms, m.Readable c.limit ∧ m.Suits spec) ∧
        data.length = spec.length.toNat ∧
        (∀ p < spec.length.toNat, ∀ byte, lastAt? (blocksOf ms) p = some byte →
          data[p]? = some byte) ∧
        (∀ p ∈ leftOut (blocksOf ms) spec.length.toNat, data[p]? = some 0) ∧
        spec.length.toNat ≤ (positionsOf (blocksOf ms)).length ∧
        (leftOut (blocksOf ms) spec.length.toNat).length ≤ repeated (blocksOf ms) ∧
        ((blocksOf ms).Pairwise Block.Apart → Covers (blocksOf ms) spec.length.toNat) := by
  intro wire session arrivals c spec done data
  have hdata : done.1.value? = some data := by decide +kernel
  have hok : done.1 = .ok data := Result.value?_eq_some_iff.1 hdata
  exact ⟨hok, fetch_counts c _ spec 2 data hok⟩

/-- The peer sends the first three of five bytes twice.  The attempt ends with six bytes counted,
and the last two positions still have the zeros they began with. -/
theorem fetch_block_twice :
    let ms : List Message := [.unchoke, .piece 3 0 [1, 2, 3], .piece 3 0 [1, 2, 3]]
    let session : Session := .opened ⟨.short ⟨127, 0, 0, 1⟩, 6881⟩ ⟨.zero 20⟩ ⟨[]⟩ 0
    let arrivals : List Arrival := ms.map fun m => .bytes (Frame.encode m)
    let c : Connection := ⟨session, .start arrivals .silent none none, 64⟩
    let spec : PieceSpec := ⟨3, .zero 20, 5⟩
    let done := c.download (fun _ => none) 0 (.start spec 16384)
    c.stream.incoming = ms.flatMap Frame.encode ∧ done.2.stream.incoming = [] ∧
      done.1 = .ok [1, 2, 3, 0, 0] ∧
      3 ∉ positionsOf (blocksOf ms) ∧ 4 ∉ positionsOf (blocksOf ms) := by
  intro ms session arrivals c spec done
  have hdata : done.1.value? = some [1, 2, 3, 0, 0] := by decide +kernel
  exact ⟨by decide +kernel, by decide +kernel, Result.value?_eq_some_iff.1 hdata, by decide,
    by decide⟩

end Connection

end Torrent
