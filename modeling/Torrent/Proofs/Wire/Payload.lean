import Torrent.Proofs.Bytes.Stretch
import Torrent.Proofs.Wire.Frame
import Torrent.Wire.Payload

/-!
# Payloads and their fields

A payload reader accepts a message exactly when it is the message that is made of
what the reader gives (`Message.haveIndex_eq_ok_iff`,
`Message.blockRequest_eq_ok_iff`, `Message.copyBlock_eq_ok_iff`).  So a reader undoes
its maker, and no two messages of a kind are read as the same fields.

Frames carry this over the wire: what was made, written and read back has its fields,
and what was read from a frame is written as that frame (`Frame.typed_round_trip`).
-/

namespace Torrent

namespace BigEndian

variable {bytes : Bytes}

theorem toBytes_inj {w w' : UInt32} : toBytes w = toBytes w' ↔ w = w' := by
  refine ⟨fun h => ?_, congrArg toBytes⟩
  rw [← ofBytes_toBytes w [], h, ofBytes_toBytes]

/-- A word and what follows it are the bytes they were read from. -/
theorem toBytes_append_drop (h : 4 ≤ bytes.length) :
    toBytes (ofBytes bytes) ++ bytes.drop 4 = bytes := by
  rw [toBytes_ofBytes_of_le h, List.take_append_drop]

/-- Two words and what follows them are the bytes they were read from. -/
theorem toBytes_append_toBytes_append_drop (h : 8 ≤ bytes.length) :
    toBytes (ofBytes bytes) ++ toBytes (ofBytes (bytes.drop 4)) ++ bytes.drop 8 = bytes := by
  have hrest : 4 ≤ (bytes.drop 4).length := by
    rw [List.length_drop]
    omega
  have hdrop : bytes.drop 8 = (bytes.drop 4).drop 4 := by rw [List.drop_drop]
  rw [hdrop, List.append_assoc, toBytes_append_drop hrest, toBytes_append_drop (by omega)]

end BigEndian

namespace Message

variable {m : Message} {index wanted : PieceIndex} {r : BlockRequest}

/-! ## Announcements -/

theorem haveIndex_have (index : PieceIndex) : (have_ index).haveIndex = .ok index := by
  have hindex := BigEndian.ofBytes_toBytes index []
  rw [List.append_nil] at hindex
  rw [haveIndex, if_neg fun h => h rfl, if_neg fun h => h rfl]
  exact congrArg Except.ok hindex

/-- An announcement of a piece is the message made of its index. -/
theorem haveIndex_eq_ok_iff : m.haveIndex = .ok index ↔ m = have_ index := by
  constructor
  · intro h
    rw [haveIndex] at h
    split at h
    next => cases h
    next hkind =>
      split at h
      next => cases h
      next hsize =>
        cases h
        obtain ⟨kind, payload⟩ := m
        obtain rfl : kind = .have_ := Classical.not_not.1 hkind
        exact congrArg (Message.mk _) (BigEndian.toBytes_ofBytes (Classical.not_not.1 hsize)).symm
  · rintro rfl
    exact haveIndex_have index

theorem have_inj {other : PieceIndex} : have_ index = have_ other ↔ index = other := by
  refine ⟨fun h => ?_, congrArg have_⟩
  have hindex := haveIndex_eq_ok_iff.2 h
  rw [haveIndex_have] at hindex
  exact Except.ok.inj hindex

theorem exists_haveIndex_iff :
    (∃ index, m.haveIndex = .ok index) ↔ m.kind = .have_ ∧ m.payload.length = 4 := by
  constructor
  · rintro ⟨index, h⟩
    rw [haveIndex_eq_ok_iff.1 h]
    exact ⟨rfl, rfl⟩
  · rintro ⟨hkind, hsize⟩
    rw [haveIndex, if_neg (not_not_intro hkind), if_neg (not_not_intro hsize)]
    exact ⟨_, rfl⟩

/-! ## Requests -/

/-- Twelve bytes are the stretch that they spell. -/
theorem stretch_ofBytes {payload : Bytes} (h : payload.length = 12) :
    stretch (BigEndian.ofBytes payload) (BigEndian.ofBytes (payload.drop 4))
      (BigEndian.ofBytes (payload.drop 8)) = payload := by
  have hlast : (payload.drop 8).length = 4 := by rw [List.length_drop, h]
  rw [stretch, BigEndian.toBytes_ofBytes hlast]
  exact BigEndian.toBytes_append_toBytes_append_drop (by omega)

/-- A stretch is read as what it was made of. -/
theorem ofBytes_stretch (r : BlockRequest) :
    (⟨BigEndian.ofBytes (stretch r.index r.start r.length),
      BigEndian.ofBytes ((stretch r.index r.start r.length).drop 4),
      BigEndian.ofBytes ((stretch r.index r.start r.length).drop 8)⟩ : BlockRequest) = r := by
  have hstart : (stretch r.index r.start r.length).drop 4 =
      BigEndian.toBytes r.start ++ BigEndian.toBytes r.length := rfl
  have hlength : (stretch r.index r.start r.length).drop 8 =
      BigEndian.toBytes r.length ++ [] := rfl
  rw [hstart, hlength, BigEndian.ofBytes_toBytes, BigEndian.ofBytes_toBytes, stretch,
    List.append_assoc, BigEndian.ofBytes_toBytes]

/-- A request is read back as what it asks for. -/
theorem blockRequest_request (r : BlockRequest) :
    (request r.index r.start r.length).blockRequest = .ok r := by
  rw [blockRequest, if_neg fun h => h.1 rfl, if_neg fun h => h rfl]
  exact congrArg Except.ok (ofBytes_stretch r)

/-- The withdrawal of a request is read as the request it withdraws. -/
theorem blockRequest_cancel (r : BlockRequest) :
    (cancel r.index r.start r.length).blockRequest = .ok r := by
  rw [blockRequest, if_neg fun h => h.2 rfl, if_neg fun h => h rfl]
  exact congrArg Except.ok (ofBytes_stretch r)

/-- What names a stretch is the request of it or its withdrawal. -/
theorem blockRequest_eq_ok_iff :
    m.blockRequest = .ok r ↔
      m = request r.index r.start r.length ∨ m = cancel r.index r.start r.length := by
  constructor
  · intro h
    rw [blockRequest] at h
    split at h
    next => cases h
    next hkind =>
      split at h
      next => cases h
      next hsize =>
        cases h
        obtain ⟨kind, payload⟩ := m
        have hpayload := (stretch_ofBytes (Classical.not_not.1 hsize)).symm
        rcases Decidable.not_and_iff_not_or_not.1 hkind with hrequest | hcancel
        · obtain rfl : kind = .request := Classical.not_not.1 hrequest
          exact .inl (congrArg (Message.mk _) hpayload)
        · obtain rfl : kind = .cancel := Classical.not_not.1 hcancel
          exact .inr (congrArg (Message.mk _) hpayload)
  · rintro (rfl | rfl)
    · exact blockRequest_request r
    · exact blockRequest_cancel r

theorem exists_blockRequest_iff :
    (∃ r, m.blockRequest = .ok r) ↔
      (m.kind = .request ∨ m.kind = .cancel) ∧ m.payload.length = 12 := by
  constructor
  · rintro ⟨r, h⟩
    rcases blockRequest_eq_ok_iff.1 h with rfl | rfl
    · exact ⟨.inl rfl, rfl⟩
    · exact ⟨.inr rfl, rfl⟩
  · rintro ⟨hkind, hsize⟩
    have hnot : ¬(m.kind ≠ .request ∧ m.kind ≠ .cancel) := fun h => hkind.elim h.1 h.2
    rw [blockRequest, if_neg hnot, if_neg (not_not_intro hsize)]
    exact ⟨_, rfl⟩

/-! ## Blocks -/

variable {start count size : Nat} {bytes buffer buffer' : Bytes}

/-- A block with both its words is the message made of them and its bytes. -/
theorem eq_piece (hkind : m.kind = .piece) (hwords : 8 ≤ m.payload.length) :
    m = piece (BigEndian.ofBytes m.payload) (BigEndian.ofBytes (m.payload.drop 4))
      (m.payload.drop 8) := by
  obtain ⟨kind, payload⟩ := m
  obtain rfl : kind = .piece := hkind
  exact congrArg (Message.mk _) (BigEndian.toBytes_append_toBytes_append_drop hwords).symm

theorem ofBytes_payload_piece (index : PieceIndex) (place : UInt32) (bytes : Bytes) :
    BigEndian.ofBytes (piece index place bytes).payload = index ∧
      BigEndian.ofBytes ((piece index place bytes).payload.drop 4) = place ∧
      (piece index place bytes).payload.length = 8 + bytes.length := by
  simp only [piece]
  refine ⟨?_, BigEndian.ofBytes_toBytes place bytes, ?_⟩
  · rw [List.append_assoc, BigEndian.ofBytes_toBytes]
  · rw [List.length_append, List.length_append, BigEndian.length_toBytes,
      BigEndian.length_toBytes]

/-- A block of the wanted piece is the message made of its place and its bytes, and it fits. -/
theorem block_eq_ok_iff :
    m.block wanted size = .ok (start, bytes) ↔
      ∃ place : UInt32, place.toNat = start ∧ m = piece wanted place bytes ∧
        start + bytes.length ≤ size := by
  constructor
  · intro h
    rw [block] at h
    split at h
    next => cases h
    next hkind =>
      split at h
      next => cases h
      next hwords =>
        simp only at h
        split at h
        next => cases h
        next hindex =>
          split at h
          next => cases h
          next hfits =>
            cases h
            have hmade := eq_piece (Classical.not_not.1 hkind) (Nat.le_of_not_lt hwords)
            rw [Classical.not_not.1 hindex] at hmade
            exact ⟨_, rfl, hmade, Nat.le_of_not_lt hfits⟩
  · rintro ⟨place, rfl, rfl, hfits⟩
    obtain ⟨hindex, hplace, hlength⟩ := ofBytes_payload_piece wanted place bytes
    rw [block, if_neg fun h => h rfl, if_neg (by omega)]
    simp only
    rw [if_neg (not_not_intro hindex), hplace]
    exact if_neg (Nat.not_lt.2 hfits)

/-- A block is copied exactly when it is one of the wanted piece that fits, and it is copied whole to
its place. -/
theorem copyBlock_eq_ok_iff :
    m.copyBlock wanted buffer = .ok (count, buffer') ↔
      ∃ (place : UInt32) (bytes : Bytes), m = piece wanted place bytes ∧
        place.toNat + bytes.length ≤ buffer.length ∧ count = bytes.length ∧
        buffer' = buffer.overlay place.toNat bytes := by
  rw [copyBlock]
  split
  next cause hblock =>
    refine ⟨fun h => (by cases h), ?_⟩
    rintro ⟨place, bytes, rfl, hfits, -, -⟩
    cases hblock.symm.trans (block_eq_ok_iff.2 ⟨place, rfl, rfl, hfits⟩)
  next start bytes hblock =>
    obtain ⟨place, rfl, rfl, hfits⟩ := block_eq_ok_iff.1 hblock
    constructor
    · intro h
      cases h
      exact ⟨place, bytes, rfl, hfits, rfl, rfl⟩
    · rintro ⟨place', bytes', hsame, hfits', rfl, rfl⟩
      have hblock' := hblock.symm.trans (block_eq_ok_iff.2 ⟨place', rfl, hsame, hfits'⟩)
      obtain ⟨hplace, hbytes⟩ := Prod.mk.inj (Except.ok.inj hblock')
      rw [hplace, hbytes]

/-- A block message determines its piece, its place and its bytes. -/
theorem piece_inj {place place' : UInt32} {bytes' : Bytes}
    (h : piece index place bytes = piece wanted place' bytes') :
    index = wanted ∧ place = place' ∧ bytes = bytes' := by
  have hpayload := congrArg Message.payload h
  simp only [piece] at hpayload
  obtain ⟨hwords, hbytes⟩ := List.append_inj hpayload rfl
  obtain ⟨hindex, hplace⟩ := List.append_inj hwords rfl
  exact ⟨BigEndian.toBytes_inj.1 hindex, BigEndian.toBytes_inj.1 hplace, hbytes⟩

end Message

/-! ## Over the wire -/

namespace Frame

/-- A message under the name of its kind is read back as it was written, whatever follows it. -/
theorem decode_encode_named {m : Message} (rest : Bytes) (hkeep : m.kind ≠ .keepAlive)
    (hother : ∀ id, m.kind ≠ .other id) (h : m.payload.length < UInt32.size - 1) :
    decode (encode m ++ rest) = .ok m := by
  rw [decode_encode m rest h, Message.canonical_eq_self hkeep fun id _ => hother id]

/-- What is made of fields comes over the wire with these fields, and a block comes whole.  What was
read from a frame and has the fields of an announcement, of a request or of its withdrawal is written
as that very frame when it is made of these fields again.  Announcements have payloads of four bytes,
requests and withdrawals payloads of twelve, and nothing else is read as one. -/
theorem typed_round_trip :
    (∀ (index : PieceIndex) (rest : Bytes),
      decode (encode (.have_ index) ++ rest) = .ok (.have_ index) ∧
        (Message.have_ index).haveIndex = .ok index) ∧
    (∀ (r : BlockRequest) (rest : Bytes),
      (decode (encode (.request r.index r.start r.length) ++ rest) =
          .ok (.request r.index r.start r.length) ∧
        (Message.request r.index r.start r.length).blockRequest = .ok r) ∧
      decode (encode (.cancel r.index r.start r.length) ++ rest) =
          .ok (.cancel r.index r.start r.length) ∧
        (Message.cancel r.index r.start r.length).blockRequest = .ok r) ∧
    (∀ (index : PieceIndex) (place : UInt32) (block rest : Bytes),
      block.length < UInt32.size - 9 →
      decode (encode (.piece index place block) ++ rest) = .ok (.piece index place block) ∧
      (∀ wanted buffer count buffer',
        (Message.piece index place block).copyBlock wanted buffer = .ok (count, buffer') ↔
          wanted = index ∧ place.toNat + block.length ≤ buffer.length ∧ count = block.length ∧
            buffer' = buffer.overlay place.toNat block) ∧
      ∀ buffer : Bytes, place.toNat + block.length ≤ buffer.length →
        (buffer.overlay place.toNat block).stretch place.toNat block.length = block) ∧
    (∀ (bytes : Bytes) (m : Message), decode bytes = .ok m →
      (∀ index, m.haveIndex = .ok index →
        encode (.have_ index) = bytes.take (4 + declared bytes)) ∧
      ∀ r, m.blockRequest = .ok r →
        m.kind = .request ∧
          encode (.request r.index r.start r.length) = bytes.take (4 + declared bytes) ∨
        m.kind = .cancel ∧
          encode (.cancel r.index r.start r.length) = bytes.take (4 + declared bytes)) ∧
    ∀ m : Message,
      ((∃ index, m.haveIndex = .ok index) ↔ m.kind = .have_ ∧ m.payload.length = 4) ∧
      ((∃ r, m.blockRequest = .ok r) ↔
        (m.kind = .request ∨ m.kind = .cancel) ∧ m.payload.length = 12) := by
  refine ⟨fun index rest => ⟨?_, Message.haveIndex_have index⟩, fun r rest => ⟨⟨?_,
    Message.blockRequest_request r⟩, ?_, Message.blockRequest_cancel r⟩,
    fun index place block rest hblock => ⟨?_, fun wanted buffer count buffer' => ?_,
      fun buffer => Bytes.stretch_overlay_self⟩, fun bytes m hm => ⟨fun index hindex => ?_,
      fun r hr => ?_⟩,
    fun m => ⟨Message.exists_haveIndex_iff, Message.exists_blockRequest_iff⟩⟩
  · exact decode_encode_named rest nofun nofun (show 4 < UInt32.size - 1 by decide)
  · exact decode_encode_named rest nofun nofun (show 12 < UInt32.size - 1 by decide)
  · exact decode_encode_named rest nofun nofun (show 12 < UInt32.size - 1 by decide)
  · obtain ⟨-, -, hlength⟩ := Message.ofBytes_payload_piece index place block
    exact decode_encode_named rest nofun nofun (by omega)
  · rw [Message.copyBlock_eq_ok_iff]
    constructor
    · rintro ⟨place', block', hsame, hfits, rfl, rfl⟩
      obtain ⟨rfl, rfl, rfl⟩ := Message.piece_inj hsame
      exact ⟨rfl, hfits, rfl, rfl⟩
    · rintro ⟨rfl, hfits, rfl, rfl⟩
      exact ⟨place, block, rfl, hfits, rfl, rfl⟩
  · rw [← Message.haveIndex_eq_ok_iff.1 hindex]
    exact encode_of_decode hm
  · have hframe := encode_of_decode hm
    rcases Message.blockRequest_eq_ok_iff.1 hr with hrequest | hcancel
    · rw [← hrequest]
      exact .inl ⟨congrArg Message.kind hrequest, hframe⟩
    · rw [← hcancel]
      exact .inr ⟨congrArg Message.kind hcancel, hframe⟩

/-- A block comes over the wire and is laid to the end of its piece, and a withdrawal is written again
without the byte behind it. -/
theorem typed_round_trip_last_block :
    decode (encode (.piece 4 2 [7, 8]) ++ [9]) = .ok (.piece 4 2 [7, 8]) ∧
      (Message.piece 4 2 [7, 8]).copyBlock 4 [1, 2, 3, 4] = .ok (2, [1, 2, 7, 8]) ∧
      encode (.cancel 1 16384 5) =
        [0, 0, 0, 13, 8, 0, 0, 0, 1, 0, 0, 64, 0, 0, 0, 0, 5] := by
  obtain ⟨-, -, hpiece, hagain, -⟩ := typed_round_trip
  obtain ⟨hdecode, hcopy, -⟩ := hpiece 4 2 [7, 8] [9] (by decide)
  refine ⟨hdecode, (hcopy _ _ _ _).2 (by decide), ?_⟩
  have hread : decode ([0, 0, 0, 13, 8, 0, 0, 0, 1, 0, 0, 64, 0, 0, 0, 0, 5] ++ [9]) =
      .ok ⟨.cancel, [0, 0, 0, 1, 0, 0, 64, 0, 0, 0, 0, 5]⟩ := rfl
  rcases (hagain _ _ hread).2 ⟨1, 16384, 5⟩ rfl with ⟨hkind, -⟩ | ⟨-, hframe⟩
  · cases hkind
  · exact hframe

end Frame

end Torrent
