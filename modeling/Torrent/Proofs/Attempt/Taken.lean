import Torrent.Attempt
import Torrent.Proofs.Attempt.Blocks
import Torrent.Proofs.Wire.Payload

/-!
# What an attempt took

A message is obeyed exactly when it suits the piece, and then the attempt lays
the block that comes with it over its buffer and counts its bytes
(`Attempt.handle_of_suits`, `Attempt.suits_of_handle`).  As long as no two blocks
meet, all that it took stays in the buffer (`Attempt.Took.handle`), and the count
says when the piece is complete (`Attempt.Took.isDone_iff`).
-/

namespace Torrent

namespace Message

/-- The block that a message brings. -/
def brought? (m : Message) : Option Block :=
  if m.kind = .piece then
    some ⟨(BigEndian.ofBytes (m.payload.drop 4)).toNat, m.payload.drop 8⟩
  else none

/-- A message that an attempt at a piece can take, whatever else it took: its payload has the size
of its kind, and a block belongs to the piece and lies in it. -/
structure Suits (spec : PieceSpec) (m : Message) : Prop where
  announcement : m.kind = .have_ → m.payload.length = 4
  request : m.kind = .request → m.payload.length = 12
  words : m.kind = .piece → 8 ≤ m.payload.length
  index : m.kind = .piece → BigEndian.ofBytes m.payload = spec.index
  within : ∀ b ∈ m.brought?, b.start + b.bytes.length ≤ spec.length.toNat

variable {m : Message} {spec : PieceSpec}

theorem brought?_eq_none (h : m.kind ≠ .piece) : m.brought? = none := if_neg h

theorem brought?_piece (index : PieceIndex) (place : UInt32) (bytes : Bytes) :
    (piece index place bytes).brought? = some ⟨place.toNat, bytes⟩ := by
  obtain ⟨-, hplace, -⟩ := ofBytes_payload_piece index place bytes
  have hkind : (piece index place bytes).kind = .piece := rfl
  rw [brought?, if_pos hkind, hplace]
  rfl

/-- A block of the piece suits it where it fits. -/
theorem suits_piece {place : UInt32} {bytes : Bytes}
    (hfits : place.toNat + bytes.length ≤ spec.length.toNat) :
    (piece spec.index place bytes).Suits spec := by
  obtain ⟨hindex, -, hlength⟩ := ofBytes_payload_piece spec.index place bytes
  refine ⟨nofun, nofun, fun _ => by omega, fun _ => hindex, fun b hb => ?_⟩
  rw [brought?_piece] at hb
  cases hb
  exact hfits

/-- A block that suits the piece is copied whole to its place. -/
theorem Suits.copyBlock (h : m.Suits spec) (hkind : m.kind = .piece) {buffer : Bytes}
    (hroom : buffer.length = spec.length.toNat) :
    ∃ b, m.brought? = some b ∧
      m.copyBlock spec.index buffer = .ok (b.bytes.length, buffer.overlay b.start b.bytes) := by
  have hmade := eq_piece hkind (h.words hkind)
  rw [h.index hkind] at hmade
  have hbrought := congrArg brought? hmade
  rw [brought?_piece] at hbrought
  have hfits := h.within _ hbrought
  rw [← hroom] at hfits
  exact ⟨_, hbrought, copyBlock_eq_ok_iff.2 ⟨_, _, hmade, hfits, rfl, rfl⟩⟩

/-- A block that was copied suits the piece, and it was copied whole to its place. -/
theorem suits_of_copyBlock {buffer buffer' : Bytes} {count : Nat}
    (hroom : buffer.length = spec.length.toNat)
    (h : m.copyBlock spec.index buffer = .ok (count, buffer')) :
    m.Suits spec ∧ ∃ b, m.brought? = some b ∧ count = b.bytes.length ∧
      buffer' = buffer.overlay b.start b.bytes := by
  obtain ⟨place, bytes, rfl, hfits, rfl, rfl⟩ := copyBlock_eq_ok_iff.1 h
  exact ⟨suits_piece (hroom ▸ hfits), _, brought?_piece _ _ _, rfl, rfl⟩

end Message

/-- The blocks that messages bring. -/
def blocksOf (ms : List Message) : List Block := ms.filterMap Message.brought?

@[simp] theorem blocksOf_nil : blocksOf [] = [] := rfl

theorem blocksOf_append (ms ms' : List Message) :
    blocksOf (ms ++ ms') = blocksOf ms ++ blocksOf ms' :=
  List.filterMap_append

theorem blocksOf_singleton (m : Message) : blocksOf [m] = m.brought?.toList := by
  rw [blocksOf, List.filterMap_cons, List.filterMap_nil]
  cases m.brought? <;> rfl

theorem blocksOf_cons (m : Message) (ms : List Message) :
    blocksOf (m :: ms) = m.brought?.toList ++ blocksOf ms := by
  rw [← blocksOf_singleton, ← blocksOf_append, List.singleton_append]

/-- The block of the next message belongs to what was taken or to what is still to come. -/
theorem append_blocksOf_cons (taken : List Block) (m : Message) (ms : List Message) :
    taken ++ blocksOf (m :: ms) = taken ++ m.brought?.toList ++ blocksOf ms := by
  rw [blocksOf_cons, List.append_assoc]

namespace Attempt

variable {spec : PieceSpec} {a : Attempt} {taken : List Block} {m : Message}

/-! ## One message -/

/-- The attempt after a block came for a place. -/
def afterBlock (a : Attempt) (b : Block) : Attempt :=
  { a with
    buffer := a.buffer.overlay b.start b.bytes
    backlog := oneAnswered a.backlog
    downloaded := a.downloaded + UInt32.ofNat b.bytes.length }

/-- The attempt after a message that suits its piece. -/
def afterMessage (a : Attempt) (m : Message) : Attempt :=
  match m.brought? with
  | none => a
  | some b => a.afterBlock b

theorem afterMessage_of_kind (h : m.kind ≠ .piece) : a.afterMessage m = a := by
  rw [afterMessage, Message.brought?_eq_none h]

/-- A message that suits the piece is obeyed. -/
theorem handle_of_suits (hsuits : m.Suits a.spec) (hroom : a.buffer.length = a.spec.length.toNat)
    (s : Session) (now : Nat) :
    ∃ s' request, a.handle s now m = .ok (a.afterMessage m, s', request) := by
  by_cases hpiece : m.kind = .piece
  · obtain ⟨b, hbrought, hcopy⟩ := hsuits.copyBlock hpiece hroom
    rw [afterMessage, hbrought]
    simp only [handle, hpiece, hcopy]
    exact ⟨_, _, rfl⟩
  rw [afterMessage_of_kind hpiece]
  cases hkind : m.kind with
  | piece => exact absurd hkind hpiece
  | have_ =>
      obtain ⟨index, hindex⟩ := Message.exists_haveIndex_iff.2 ⟨hkind, hsuits.announcement hkind⟩
      simp only [handle, hkind, hindex]
      exact ⟨_, _, rfl⟩
  | request =>
      obtain ⟨r, hrequest⟩ :=
        Message.exists_blockRequest_iff.2 ⟨.inl hkind, hsuits.request hkind⟩
      simp only [handle, hkind, hrequest]
      exact ⟨_, _, rfl⟩
  | choke | unchoke | bitfield | keepAlive | interested | notInterested | cancel | other id =>
      simp only [handle, hkind]
      exact ⟨_, _, rfl⟩

/-- A message that is obeyed suits the piece. -/
theorem suits_of_handle (hroom : a.buffer.length = a.spec.length.toNat) {s s' : Session}
    {now : Nat} {a' : Attempt} {request : Option BlockRequest}
    (hok : a.handle s now m = .ok (a', s', request)) :
    m.Suits a.spec ∧ a' = a.afterMessage m := by
  by_cases hpiece : m.kind = .piece
  · simp only [handle, hpiece] at hok
    split at hok
    next => cases hok
    next count buffer hcopy =>
      obtain ⟨hsuits, b, hbrought, rfl, rfl⟩ := Message.suits_of_copyBlock hroom hcopy
      cases hok
      rw [afterMessage, hbrought]
      exact ⟨hsuits, rfl⟩
  rw [afterMessage_of_kind hpiece]
  have hbrings : ∀ b ∈ m.brought?, b.start + b.bytes.length ≤ a.spec.length.toNat := by
    rw [Message.brought?_eq_none hpiece]
    intro b hb
    cases hb
  cases hkind : m.kind with
  | piece => exact absurd hkind hpiece
  | have_ =>
      simp only [handle, hkind] at hok
      split at hok
      next => cases hok
      next index hindex =>
        cases hok
        have hsize := (Message.exists_haveIndex_iff.1 ⟨index, hindex⟩).2
        exact ⟨⟨fun _ => hsize, by simp [hkind], by simp [hkind], by simp [hkind], hbrings⟩, rfl⟩
  | request =>
      simp only [handle, hkind] at hok
      split at hok
      next => cases hok
      next r hrequest =>
        cases hok
        have hsize := (Message.exists_blockRequest_iff.1 ⟨r, hrequest⟩).2
        exact ⟨⟨by simp [hkind], fun _ => hsize, by simp [hkind], by simp [hkind], hbrings⟩, rfl⟩
  | choke | unchoke | bitfield | keepAlive | interested | notInterested | cancel | other id =>
      simp only [handle, hkind] at hok
      cases hok
      exact ⟨⟨by simp [hkind], by simp [hkind], by simp [hkind], by simp [hkind], hbrings⟩, rfl⟩

/-! ## All that was taken -/

/-- An attempt at a piece that took these blocks.  All of them are in its buffer. -/
structure Took (spec : PieceSpec) (taken : List Block) (a : Attempt) : Prop where
  spec_eq : a.spec = spec
  room : a.buffer.length = spec.length.toNat
  within : ∀ b ∈ taken, b.start + b.bytes.length ≤ spec.length.toNat
  count : a.downloaded.toNat = (positionsOf taken).length
  lies : ∀ b ∈ taken, b.Lies a.buffer

theorem took_start (spec : PieceSpec) (blockSize : UInt32) :
    (start spec blockSize).Took spec [] where
  spec_eq := rfl
  room := Bytes.length_zeros _
  within := by simp only [List.not_mem_nil, false_implies, implies_true]
  count := rfl
  lies := by simp only [List.not_mem_nil, false_implies, implies_true]

theorem Took.withState (h : a.Took spec taken) (state : AttemptState) :
    ({ a with state := state } : Attempt).Took spec taken :=
  ⟨h.spec_eq, h.room, h.within, h.count, h.lies⟩

theorem Took.afterRequest (h : a.Took spec taken) (r : BlockRequest) :
    (a.afterRequest r).Took spec taken :=
  ⟨h.spec_eq, h.room, h.within, h.count, h.lies⟩

/-- An attempt that took blocks which do not meet is done exactly when they cover the piece. -/
theorem Took.isDone_iff (h : a.Took spec taken) (hapart : taken.Pairwise Block.Apart) :
    a.isDone = true ↔ Covers taken spec.length.toNat := by
  rw [covers_iff hapart h.within, ← h.count, isDone, decide_eq_true_iff, h.spec_eq,
    UInt32.le_iff_toNat_le]

/-- A block that fits and meets no other is taken. -/
theorem Took.block (h : a.Took spec taken) {b : Block}
    (hwithin : b.start + b.bytes.length ≤ spec.length.toNat)
    (hapart : (taken ++ [b]).Pairwise Block.Apart) :
    (a.afterBlock b).Took spec (taken ++ [b]) := by
  have hfits : b.start + b.bytes.length ≤ a.buffer.length := h.room ▸ hwithin
  have hall : ∀ b' ∈ taken ++ [b], b'.start + b'.bytes.length ≤ spec.length.toNat := by
    intro b' hb'
    rcases List.mem_append.1 hb' with hb' | hb'
    · exact h.within b' hb'
    · rw [List.mem_singleton.1 hb']
      exact hwithin
  refine ⟨h.spec_eq, (Bytes.length_overlay hfits).trans h.room, hall, ?_, ?_⟩
  · -- All blocks together are not longer than the piece, so the count does not wrap.
    have hle := length_positionsOf_le hapart hall
    rw [positionsOf_append, List.length_append, length_positionsOf_singleton, ← h.count] at hle ⊢
    have hlt := spec.length.toNat_lt
    simp only [afterBlock]
    rw [UInt32.toNat_add, UInt32.toNat_ofNat']
    omega
  · intro b' hb'
    rcases List.mem_append.1 hb' with hb' | hb'
    · exact (h.lies b' hb').overlay ((List.pairwise_append.1 hapart).2.2 b' hb' b
        List.mem_cons_self) hfits
    · rw [List.mem_singleton.1 hb']
      exact Block.lies_overlay hfits

/-- A message that suits the piece is obeyed, and the block it brings is taken. -/
theorem Took.handle (h : a.Took spec taken) (hsuits : m.Suits spec)
    (hapart : (taken ++ m.brought?.toList).Pairwise Block.Apart) (s : Session) (now : Nat) :
    ∃ a' s' request, a.handle s now m = .ok (a', s', request) ∧
      a'.Took spec (taken ++ m.brought?.toList) := by
  obtain rfl := h.spec_eq
  obtain ⟨s', request, hok⟩ := handle_of_suits hsuits h.room s now
  refine ⟨_, s', request, hok, ?_⟩
  rw [afterMessage]
  cases hbrought : m.brought? with
  | none =>
      rw [Option.toList_none, List.append_nil]
      exact h
  | some b =>
      rw [hbrought] at hapart
      exact h.block (hsuits.within b hbrought) hapart

end Attempt

end Torrent
