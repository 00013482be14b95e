import Torrent.Proofs.Attempt.Taken

/-!
# Copying in place

A buffer is one place in memory: what was put into it before something failed would
still be there.  `Message.copyInto` copies a block into such a buffer, with one check
after the other and then one byte after the other.  It leaves what
`Message.copyBlock` gives, and where that refuses the message all of the buffer as it
was (`Message.copyInto_eq`).

So a block is copied whole or not at all, and blocks that have no position in common
may come in any order (`Message.copy_exact`).
-/

namespace Torrent

/-- The state that a program leaves, also where it fails. -/
def stateOf {ε σ α : Type} : EStateM.Result ε σ α → σ
  | .ok _ state => state
  | .error _ state => state

/-- A program that looks at its state goes on with it. -/
theorem get_bind {ε σ α : Type} (onward : σ → EStateM ε σ α) (state : σ) :
    (get >>= onward) state = onward state state := rfl

namespace Bytes

/-- A block put over the bytes from a position on, one byte after the other. -/
def put (base : Bytes) (start : Nat) : Bytes → Bytes
  | [] => base
  | byte :: rest => put (base.set start byte) (start + 1) rest

/-- Bytes that are put one after the other lie as a block. -/
theorem put_eq_overlay {base block : Bytes} {start : Nat}
    (h : start + block.length ≤ base.length) : base.put start block = base.overlay start block := by
  induction block generalizing base start with
  | nil =>
      rw [put, overlay_eq, List.append_nil, List.length_nil, Nat.add_zero, List.take_append_drop]
  | cons byte rest ih =>
      rw [List.length_cons] at h
      have hroom : start + 1 + rest.length ≤ (base.set start byte).length := by
        rw [List.length_set]
        omega
      have hfront : (base.set start byte).take (start + 1) = base.take start ++ [byte] := by
        rw [List.take_add_one, List.take_set_of_le (Nat.le_refl _), List.getElem?_set_self (by omega)]
        rfl
      have hback : (base.set start byte).drop (start + 1 + rest.length) =
          base.drop (start + (byte :: rest).length) := by
        rw [List.drop_set_of_lt (by omega), List.length_cons, Nat.add_right_comm, Nat.add_assoc]
      rw [put, ih hroom, overlay_eq, overlay_eq, hfront, hback, List.append_assoc, List.append_assoc,
        List.append_assoc]
      rfl

end Bytes

namespace Message

variable {m : Message} {wanted : PieceIndex} {buffer buffer' : Bytes} {count size : Nat}
  {cause : Violation}

/-! ## One block -/

/-- A block of the wanted piece copied into the buffer, and the number of its bytes. -/
def copyInto (m : Message) (wanted : PieceIndex) : EStateM Violation Bytes Nat := do
  if m.kind ≠ .piece then throw (.wrongKind .piece m.kind)
  else if m.payload.length < 8 then throw (.pieceSize m.payload.length)
  else
    let index := BigEndian.ofBytes m.payload
    let start := (BigEndian.ofBytes (m.payload.drop 4)).toNat
    if index ≠ wanted then throw (.wrongPiece wanted index)
    else
      let block := m.payload.drop 8
      let buffer ← get
      if buffer.length < start + block.length then
        throw (.overrun start block.length buffer.length)
      else
        modify (·.put start block)
        return block.length

/-- Copying into a buffer leaves the buffer with the block laid over it, and all of it as it was where
the message is refused. -/
theorem copyInto_eq (m : Message) (wanted : PieceIndex) (buffer : Bytes) :
    m.copyInto wanted buffer =
      match m.copyBlock wanted buffer with
      | .error cause => .error cause buffer
      | .ok (count, buffer') => .ok count buffer' := by
  simp only [copyInto, copyBlock, block]
  split
  next => rfl
  next =>
    split
    next => rfl
    next =>
      split
      next => rfl
      next =>
        rw [get_bind]
        split
        next => rfl
        next hfits =>
          exact congrArg (EStateM.Result.ok _) (Bytes.put_eq_overlay (Nat.le_of_not_lt hfits))

/-- A message is copied into the buffer exactly when it is a block of the wanted piece that fits. -/
theorem copyInto_eq_ok_iff :
    m.copyInto wanted buffer = .ok count buffer' ↔
      ∃ (place : UInt32) (bytes : Bytes), m = piece wanted place bytes ∧
        place.toNat + bytes.length ≤ buffer.length ∧ count = bytes.length ∧
        buffer' = buffer.overlay place.toNat bytes := by
  rw [← copyBlock_eq_ok_iff, copyInto_eq]
  cases m.copyBlock wanted buffer with
  | error cause => exact ⟨nofun, nofun⟩
  | ok result =>
      refine ⟨fun h => ?_, fun h => ?_⟩
      · cases h
        rfl
      · cases h
        rfl

theorem exists_copyInto_iff :
    (∃ count buffer', m.copyInto wanted buffer = .ok count buffer') ↔
      m.kind = .piece ∧ 8 ≤ m.payload.length ∧ BigEndian.ofBytes m.payload = wanted ∧
        (BigEndian.ofBytes (m.payload.drop 4)).toNat + (m.payload.length - 8) ≤ buffer.length := by
  constructor
  · rintro ⟨count, buffer', h⟩
    obtain ⟨place, bytes, rfl, hfits, -, -⟩ := copyInto_eq_ok_iff.1 h
    obtain ⟨hindex, hplace, hlength⟩ := ofBytes_payload_piece wanted place bytes
    rw [hplace, hlength]
    exact ⟨rfl, by omega, hindex, by omega⟩
  · rintro ⟨hkind, hwords, hindex, hfits⟩
    have hmade := eq_piece hkind hwords
    rw [hindex] at hmade
    exact ⟨_, _, copyInto_eq_ok_iff.2 ⟨_, _, hmade, by rwa [List.length_drop], rfl, rfl⟩⟩

/-- A message that is not copied leaves the buffer as it was. -/
theorem eq_of_copyInto_eq_error (h : m.copyInto wanted buffer = .error cause buffer') :
    buffer' = buffer := by
  rw [copyInto_eq] at h
  split at h
  next => cases h; rfl
  next => cases h

/-! ## Many blocks -/

/-- The block that is copied of a message into a buffer of `size` bytes, if it is not refused. -/
def copied? (m : Message) (wanted : PieceIndex) (size : Nat) : Option Block :=
  (m.block wanted size).toOption.map fun (start, bytes) => ⟨start, bytes⟩

/-- The buffer that is left when a message was copied into it or refused. -/
def copyOver (wanted : PieceIndex) (buffer : Bytes) (m : Message) : Bytes :=
  stateOf (m.copyInto wanted buffer)

theorem fits_of_copied? {b : Block} (h : m.copied? wanted size = some b) :
    b.start + b.bytes.length ≤ size := by
  obtain ⟨⟨start, bytes⟩, hblock, rfl⟩ := Option.map_eq_some_iff.1 h
  have hok : m.block wanted size = .ok (start, bytes) := by
    cases hresult : m.block wanted size with
    | error cause => rw [hresult] at hblock; cases hblock
    | ok result => rw [hresult] at hblock; cases hblock; rfl
  obtain ⟨place, -, -, hfits⟩ := block_eq_ok_iff.1 hok
  exact hfits

theorem copyOver_eq (m : Message) (wanted : PieceIndex) (buffer : Bytes) :
    copyOver wanted buffer m = (m.copied? wanted buffer.length).toList.foldl Block.laid buffer := by
  rw [copyOver, copyInto_eq, copyBlock, copied?]
  cases m.block wanted buffer.length <;> rfl

theorem length_copyOver (m : Message) (wanted : PieceIndex) (buffer : Bytes) :
    (copyOver wanted buffer m).length = buffer.length := by
  rw [copyOver_eq]
  cases hcopied : m.copied? wanted buffer.length with
  | none => rfl
  | some b => exact Bytes.length_overlay (fits_of_copied? hcopied)

/-- Of messages that are copied one after the other the blocks are laid that are not refused. -/
theorem foldl_copyOver (ms : List Message) (wanted : PieceIndex) (buffer : Bytes) :
    ms.foldl (copyOver wanted) buffer =
      (ms.filterMap (·.copied? wanted buffer.length)).foldl Block.laid buffer := by
  induction ms generalizing buffer with
  | nil => rfl
  | cons m ms ih =>
      rw [List.foldl_cons, ih, length_copyOver, copyOver_eq, List.filterMap_cons]
      cases m.copied? wanted buffer.length <;> rfl

/-- A block is copied exactly if it is one of the wanted piece with both its words that fits.  Then it
lies in its place whole, and every other byte stays; a message that is refused leaves the buffer as it
was.  So of messages whose blocks have no position in common, where they are not refused, the same
buffer is left in whatever order they are copied. -/
theorem copy_exact (wanted : PieceIndex) (buffer : Bytes) :
    (∀ m : Message,
      ((∃ count buffer', m.copyInto wanted buffer = .ok count buffer') ↔
        m.kind = .piece ∧ 8 ≤ m.payload.length ∧ BigEndian.ofBytes m.payload = wanted ∧
          (BigEndian.ofBytes (m.payload.drop 4)).toNat + (m.payload.length - 8) ≤
            buffer.length) ∧
      (∀ count buffer', m.copyInto wanted buffer = .ok count buffer' →
        let start := (BigEndian.ofBytes (m.payload.drop 4)).toNat
        count = (m.payload.drop 8).length ∧ buffer'.length = buffer.length ∧
          buffer'.stretch start count = m.payload.drop 8 ∧
          ∀ p, p < start ∨ start + count ≤ p → buffer'[p]? = buffer[p]?) ∧
      (∀ cause buffer', m.copyInto wanted buffer = .error cause buffer' → buffer' = buffer) ∧
      m.copyInto wanted buffer =
        match m.copyBlock wanted buffer with
        | .error cause => .error cause buffer
        | .ok (count, buffer') => .ok count buffer') ∧
    ∀ ms ms' : List Message, ms.Perm ms' →
      (ms.filterMap (·.copied? wanted buffer.length)).Pairwise Block.Apart →
      ms.foldl (copyOver wanted) buffer = ms'.foldl (copyOver wanted) buffer := by
  refine ⟨fun m => ⟨exists_copyInto_iff, fun count buffer' hok => ?_,
    fun cause buffer' => eq_of_copyInto_eq_error, copyInto_eq m wanted buffer⟩,
    fun ms ms' hperm hapart => ?_⟩
  · obtain ⟨place, bytes, rfl, hfits, rfl, rfl⟩ := copyInto_eq_ok_iff.1 hok
    obtain ⟨-, hplace, -⟩ := ofBytes_payload_piece wanted place bytes
    have hbytes : (piece wanted place bytes).payload.drop 8 = bytes := rfl
    rw [hplace, hbytes]
    refine ⟨rfl, Bytes.length_overlay hfits, Bytes.stretch_overlay_self hfits, fun p hp => ?_⟩
    have hnone : (⟨place.toNat, bytes⟩ : Block).byteAt? p = none :=
      Block.byteAt?_eq_none_iff.2 fun hin => by
        have hin : place.toNat ≤ p ∧ p < place.toNat + bytes.length := Block.mem_positions.1 hin
        omega
    rw [Block.getElem?_overlay (b := ⟨place.toNat, bytes⟩) hfits, hnone, Option.none_or]
  · rw [foldl_copyOver, foldl_copyOver]
    refine Block.foldl_laid_perm (hperm.filterMap _) hapart fun b hb => ?_
    obtain ⟨m, -, hcopied⟩ := List.mem_filterMap.1 hb
    exact fits_of_copied? hcopied

/-- Of two blocks and one of another piece between them the same buffer is left from behind. -/
theorem copy_exact_from_behind :
    let ms : List Message := [.piece 4 2 [7, 8], .piece 5 1 [9], .piece 4 0 [5]]
    ms.foldl (copyOver 4) [1, 2, 3, 4] = [5, 2, 7, 8] ∧
      ms.reverse.foldl (copyOver 4) [1, 2, 3, 4] = [5, 2, 7, 8] := by
  intro ms
  have hleft : ms.foldl (copyOver 4) [1, 2, 3, 4] = [5, 2, 7, 8] := by decide
  have hblocks : ms.filterMap (·.copied? 4 4) = [⟨2, [7, 8]⟩, ⟨0, [5]⟩] := rfl
  have hapart : Block.Apart ⟨2, [7, 8]⟩ ⟨0, [5]⟩ := fun p hp hp' => by
    have hp : 2 ≤ p ∧ p < 4 := Block.mem_positions.1 hp
    have hp' : 0 ≤ p ∧ p < 1 := Block.mem_positions.1 hp'
    omega
  obtain ⟨-, horder⟩ := copy_exact 4 [1, 2, 3, 4]
  have hsame := horder ms ms.reverse ms.reverse_perm.symm (hblocks ▸ List.pairwise_pair.2 hapart)
  exact ⟨hleft, hsame ▸ hleft⟩

end Message

end Torrent
