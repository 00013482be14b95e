import Torrent.Wire.Frame

/-!
# Frames and messages

Writing a message and reading it back gives its canonical form, and reading
succeeds exactly where a whole frame is there.  What was read is written as the
very bytes it was read from (`Frame.round_trip`), so two byte strings that are
read as one message agree in their frames.

`Message.Readable` says which messages a reader with a limit reads back as they
were written.
-/

namespace Torrent

/-- The word at the front of a byte string is written as its first four bytes. -/
theorem BigEndian.toBytes_ofBytes_of_le {bytes : Bytes} (h : 4 ≤ bytes.length) :
    toBytes (ofBytes bytes) = bytes.take 4 := by
  have hsame : ofBytes bytes = ofBytes (bytes.take 4) := by
    simp only [ofBytes, List.take_take, Nat.min_self]
  rw [hsame, toBytes_ofBytes (List.length_take_of_le h)]

/-! ## Kinds -/

/-- A number that has a name is read as that name. -/
theorem MessageKind.ofId_ne_other {id : UInt8} (h : id ≤ 8) (id' : UInt8) :
    ofId id ≠ .other id' := by
  have hlt : id.toNat < 9 := Nat.lt_succ_of_le (UInt8.le_iff_toNat_le.1 h)
  unfold ofId
  split <;> grind

/-- A number without a name is kept. -/
theorem MessageKind.ofId_of_lt {id : UInt8} (h : 8 < id) : ofId id = .other id := by
  have hlt : 8 < id.toNat := UInt8.lt_iff_toNat_lt.1 h
  unfold ofId
  split <;> grind

/-- The number of a kind is read as that kind, unless the kind is a number that has a name. -/
theorem MessageKind.ofId_of_id? {kind : MessageKind} {id : UInt8} (h : kind.id? = some id)
    (hother : ∀ id ≤ 8, kind ≠ .other id) : ofId id = kind := by
  cases kind with
  | keepAlive => cases h
  | other id' =>
      cases h
      exact ofId_of_lt (UInt8.not_le.1 fun hle => hother id hle rfl)
  | _ => cases h; rfl

namespace Message

theorem canonical_keepAlive (payload : Bytes) :
    (⟨.keepAlive, payload⟩ : Message).canonical = .keepAlive := rfl

theorem canonical_other (id : UInt8) (payload : Bytes) :
    (⟨.other id, payload⟩ : Message).canonical = ⟨.ofId id, payload⟩ := rfl

theorem canonical_eq_self {m : Message} (hkeep : m.kind ≠ .keepAlive)
    (hother : ∀ id ≤ 8, m.kind ≠ .other id) : m.canonical = m := by
  unfold canonical
  split
  next hid =>
    cases hkind : m.kind with
    | keepAlive => exact absurd hkind hkeep
    | _ => rw [hkind] at hid; cases hid
  next id hid => rw [MessageKind.ofId_of_id? hid hother]

/-- A message that a reader with a limit reads back as it was written: a keep-alive without payload,
or a kind under its first name that is not longer than the limit. -/
def Readable (limit : UInt32) (m : Message) : Prop :=
  m = .keepAlive ∨
    m.kind ≠ .keepAlive ∧ (∀ id ≤ 8, m.kind ≠ .other id) ∧ 1 + m.payload.length ≤ limit.toNat

theorem Readable.canonical_eq {limit : UInt32} {m : Message} (h : m.Readable limit) :
    m.canonical = m := by
  rcases h with rfl | ⟨hkeep, hother, -⟩
  · rfl
  · exact canonical_eq_self hkeep hother

end Message

namespace Frame

/-- The length that the frame at the front of a byte string declares. -/
def declared (bytes : Bytes) : Nat := (BigEndian.ofBytes bytes).toNat

/-! ## Reading -/

theorem decode_eq (bytes : Bytes) :
    decode bytes =
      if bytes.length < 4 then .error (.shortFrame bytes.length)
      else if bytes.length < 4 + declared bytes then
        .error (.cutFrame (declared bytes) (bytes.length - 4))
      else .ok (ofBody ((bytes.drop 4).take (declared bytes))) := rfl

/-- Reading succeeds where the whole frame is there. -/
theorem decode_eq_ok_iff {bytes : Bytes} {m : Message} :
    decode bytes = .ok m ↔
      4 ≤ bytes.length ∧ 4 + declared bytes ≤ bytes.length ∧
        m = ofBody ((bytes.drop 4).take (declared bytes)) := by
  rw [decode_eq]
  split
  next hshort => exact ⟨nofun, fun h => absurd h.1 (by omega)⟩
  next hword =>
    split
    next hcut => exact ⟨nofun, fun h => absurd h.2.1 (by omega)⟩
    next hwhole =>
      rw [Except.ok.injEq]
      exact ⟨fun h => ⟨by omega, by omega, h.symm⟩, fun h => h.2.2.symm⟩

/-! ## Writing -/

/-- The frame of what was read is the length of the content and the content. -/
theorem encode_ofBody {body : Bytes} {word : UInt32} (h : body.length = word.toNat) :
    encode (ofBody body) = BigEndian.toBytes word ++ body := by
  cases body with
  | nil =>
      have hzero : word = 0 := UInt32.toNat_inj.1 h.symm
      rw [hzero]
      rfl
  | cons id payload =>
      have hword : 1 + UInt32.ofNat payload.length = word := by
        have hlt := word.toNat_lt
        simp only [List.length_cons] at h
        apply UInt32.toNat_inj.1
        simp [UInt32.toNat_add]
        omega
      simp only [encode, ofBody, MessageKind.id?_ofId, hword]

/-- What was read is written as the bytes it was read from. -/
theorem encode_of_decode {bytes : Bytes} {m : Message} (h : decode bytes = .ok m) :
    encode m = bytes.take (4 + declared bytes) := by
  obtain ⟨hword, hwhole, rfl⟩ := decode_eq_ok_iff.1 h
  have hlength : ((bytes.drop 4).take (declared bytes)).length = declared bytes := by
    simp only [List.length_take, List.length_drop]
    omega
  rw [encode_ofBody hlength, BigEndian.toBytes_ofBytes_of_le hword, List.take_add]

/-! ## Readable messages -/

/-- A readable message is read back as it was written. -/
theorem decode_encode_of_readable {limit : UInt32} {m : Message} (h : m.Readable limit)
    (rest : Bytes) : decode (encode m ++ rest) = .ok m := by
  have hsize : m.payload.length < UInt32.size - 1 := by
    have hlimit := limit.toNat_lt
    rcases h with rfl | ⟨-, -, hfits⟩
    · decide
    · simp only [UInt32.size]
      omega
  rw [decode_encode m rest hsize, h.canonical_eq]

/-- The frame of a readable message is within the limit. -/
theorem length_encode_le {limit : UInt32} {m : Message} (h : m.Readable limit) :
    (encode m).length ≤ 4 + limit.toNat := by
  rcases h with rfl | ⟨-, -, hfits⟩
  · exact Nat.le_add_right 4 _
  · unfold encode
    split
    · exact Nat.le_add_right 4 _
    · simp only [List.length_append, BigEndian.length_toBytes, List.length_cons]
      omega

/-- A frame has at least its length word. -/
theorem four_le_length_encode (m : Message) : 4 ≤ (encode m).length := by
  unfold encode
  split
  · exact Nat.le_refl 4
  · simp

/-- What is read from a frame within the limit is readable. -/
theorem readable_ofBody {limit : UInt32} {body : Bytes} (h : body.length ≤ limit.toNat) :
    (ofBody body).Readable limit := by
  cases body with
  | nil => exact .inl rfl
  | cons id payload =>
      refine .inr ⟨fun hkeep => ?_, fun id' hid' hother => ?_, ?_⟩
      · have hid : (MessageKind.ofId id).id? = some id := MessageKind.id?_ofId id
        rw [show MessageKind.ofId id = .keepAlive from hkeep] at hid
        cases hid
      · by_cases hid : id ≤ 8
        · exact MessageKind.ofId_ne_other hid id' hother
        · have hkept : MessageKind.ofId id = .other id' := hother
          rw [MessageKind.ofId_of_lt (UInt8.not_le.1 hid)] at hkept
          cases hkept
          exact hid hid'
      · simpa [ofBody, Nat.add_comm] using h

/-! ## Round trip -/

/-- Messages and frames correspond.  A message is read back in its canonical form, whatever follows
its frame; the canonical form drops the payload of a keep-alive and gives a number that has a name
that name, and nothing else.  Reading succeeds exactly where the whole frame is there, and what was
read is written as its bytes. -/
theorem round_trip :
    (∀ (m : Message) (rest : Bytes), m.payload.length < UInt32.size - 1 →
      decode (encode m ++ rest) = .ok m.canonical) ∧
    ((∀ payload, (⟨.keepAlive, payload⟩ : Message).canonical = .keepAlive) ∧
      (∀ id ≤ 8, ∀ payload, (⟨.other id, payload⟩ : Message).canonical = ⟨.ofId id, payload⟩ ∧
        (MessageKind.ofId id).id? = some id ∧ ∀ id', MessageKind.ofId id ≠ .other id') ∧
      ∀ m : Message, m.kind ≠ .keepAlive → (∀ id ≤ 8, m.kind ≠ .other id) → m.canonical = m) ∧
    ∀ bytes : Bytes,
      ((∃ m, decode bytes = .ok m) ↔
        4 ≤ bytes.length ∧ (declared bytes = 0 ∨ 4 + declared bytes ≤ bytes.length)) ∧
      ∀ m, decode bytes = .ok m → encode m = bytes.take (4 + declared bytes) := by
  refine ⟨decode_encode, ⟨Message.canonical_keepAlive, fun id hid payload => ?_,
    fun m => Message.canonical_eq_self⟩, fun bytes => ⟨⟨?_, fun h => ?_⟩, fun m => encode_of_decode⟩⟩
  · exact ⟨Message.canonical_other id payload, MessageKind.id?_ofId id,
      MessageKind.ofId_ne_other hid⟩
  · rintro ⟨m, hm⟩
    obtain ⟨hword, hwhole, -⟩ := decode_eq_ok_iff.1 hm
    exact ⟨hword, .inr hwhole⟩
  · have hwhole : 4 + declared bytes ≤ bytes.length := by
      rcases h with ⟨hword, hzero | hwhole⟩
      · omega
      · exact hwhole
    exact ⟨_, decode_eq_ok_iff.2 ⟨h.1, hwhole, rfl⟩⟩

/-- A number that has a name comes back under it, and a frame with something behind it is written
again without that. -/
theorem round_trip_named :
    decode (encode ⟨.other 4, [0, 0, 1, 2]⟩ ++ [9, 9]) = .ok ⟨.have_, [0, 0, 1, 2]⟩ ∧
      encode ⟨.have_, [0, 0, 1, 2]⟩ = [0, 0, 0, 5, 4, 0, 0, 1, 2] :=
  ⟨round_trip.1 ⟨.other 4, [0, 0, 1, 2]⟩ [9, 9] (by decide),
    (round_trip.2.2 [0, 0, 0, 5, 4, 0, 0, 1, 2, 9, 9]).2 ⟨.have_, [0, 0, 1, 2]⟩ rfl⟩

end Frame

end Torrent
