import Torrent.Wire.Handshake

/-!
# Greetings and their bytes

Greetings and the byte strings that spell one correspond one to one
(`Handshake.spelled_one_to_one`).  A byte string spells a greeting exactly where it
has the length of one and the protocol in front.  The other three fields lie behind
the protocol, one after the other (`Handshake.fields_encode`), and may be anything.
To answer ours, a greeting needs our torrent in the middle one, and nothing else of
either greeting matters.
-/

namespace Torrent.Handshake

variable {ours theirs h : Handshake} {bytes : Bytes}

/-! ## Spelling -/

/-- The protocol and the three fields behind it, one after the other. -/
theorem fields_encode (h : Handshake) :
    h.encode.take 20 = protocol ∧ (h.encode.drop 20).take 8 = h.reserved.bytes ∧
      (h.encode.drop 28).take 20 = h.infoHash.octets.bytes ∧
      h.encode.drop 48 = h.peerId.octets.bytes := by
  obtain ⟨⟨r, hr⟩, ⟨⟨i, hi⟩⟩, ⟨⟨p, hp⟩⟩⟩ := h
  simp [encode, List.drop_append, length_protocol, hr, hi, List.drop_eq_nil_of_le]

theorem decode_eq_ok_iff : decode bytes = .ok h ↔ h.encode = bytes := by
  constructor
  · exact encode_of_decode
  · rintro rfl
    exact decode_encode h

theorem protocol_prefix_iff : protocol <+: bytes ↔ bytes.take 20 = protocol := by
  rw [List.prefix_iff_eq_take, length_protocol, eq_comm]

/-- Bytes are read as a greeting where there are enough of them, with the protocol in front. -/
theorem exists_decode_iff :
    (∃ h, decode bytes = .ok h) ↔ bytes.length = size ∧ protocol <+: bytes := by
  rw [protocol_prefix_iff]
  constructor
  · rintro ⟨h, hdecode⟩
    obtain rfl := decode_eq_ok_iff.1 hdecode
    exact ⟨h.length_encode, h.fields_encode.1⟩
  · rintro ⟨hlength, hprotocol⟩
    have hsize : bytes.length = 68 := hlength
    exact ⟨_, by rw [decode, dif_pos hsize, if_pos hprotocol]⟩

theorem decode_of_wrong_protocol (hlength : bytes.length = size) (h : ¬ protocol <+: bytes) :
    decode bytes = .error .wrongProtocol := by
  have hsize : bytes.length = 68 := hlength
  rw [decode, dif_pos hsize, if_neg (mt protocol_prefix_iff.2 h)]

/-! ## Answering -/

/-- A greeting answers ours where it names our torrent. -/
theorem accept_encode (ours h : Handshake) :
    ours.accept h.encode =
      if h.infoHash = ours.infoHash then .ok h else .error .infoHashMismatch := by
  rw [accept, decode_encode]

theorem accept_eq_ok_iff :
    ours.accept bytes = .ok theirs ↔ theirs.infoHash = ours.infoHash ∧ bytes = theirs.encode := by
  constructor
  · intro h
    rw [accept] at h
    split at h
    next => cases h
    next received hdecode =>
      split at h
      next hsame =>
        cases h
        exact ⟨hsame, (encode_of_decode hdecode).symm⟩
      next => cases h
  · rintro ⟨hsame, rfl⟩
    rw [accept_encode, if_pos hsame]

/-- The torrent that a greeting names is in the bytes behind the first 28. -/
theorem infoHash_eq_iff :
    h.infoHash = ours.infoHash ↔ (h.encode.drop 28).take 20 = ours.infoHash.octets.bytes := by
  rw [h.fields_encode.2.2.1]
  constructor
  · intro hsame
    rw [hsame]
  · obtain ⟨-, ⟨⟨i, hi⟩⟩, -⟩ := h
    obtain ⟨-, ⟨⟨i', hi'⟩⟩, -⟩ := ours
    rintro rfl
    rfl

/-- What is made of as many bytes as a greeting has: it answers ours, names another torrent, or is
of another protocol. -/
theorem accept_cases (ours : Handshake) (hlength : bytes.length = size) :
    (protocol <+: bytes ∧ (bytes.drop 28).take 20 = ours.infoHash.octets.bytes ∧
      ∃ theirs, theirs.encode = bytes ∧ ours.accept bytes = .ok theirs) ∨
    (protocol <+: bytes ∧ (bytes.drop 28).take 20 ≠ ours.infoHash.octets.bytes ∧
      ours.accept bytes = .error .infoHashMismatch) ∨
    (¬ protocol <+: bytes ∧ ours.accept bytes = .error .wrongProtocol) := by
  by_cases hprotocol : protocol <+: bytes
  · obtain ⟨theirs, hdecode⟩ := exists_decode_iff.2 ⟨hlength, hprotocol⟩
    obtain rfl := decode_eq_ok_iff.1 hdecode
    by_cases hsame : theirs.infoHash = ours.infoHash
    · refine .inl ⟨hprotocol, infoHash_eq_iff.1 hsame, theirs, rfl, ?_⟩
      rw [accept_encode, if_pos hsame]
    · refine .inr (.inl ⟨hprotocol, mt infoHash_eq_iff.2 hsame, ?_⟩)
      rw [accept_encode, if_neg hsame]
  · exact .inr (.inr ⟨hprotocol, by rw [accept, decode_of_wrong_protocol hlength hprotocol]⟩)

theorem exists_accept_iff :
    (∃ h, ours.accept bytes = .ok h) ↔ bytes.length = size ∧ protocol <+: bytes ∧
      (bytes.drop 28).take 20 = ours.infoHash.octets.bytes := by
  constructor
  · rintro ⟨h, haccept⟩
    obtain ⟨hsame, rfl⟩ := accept_eq_ok_iff.1 haccept
    obtain ⟨hlength, hprotocol⟩ := exists_decode_iff.1 ⟨h, decode_encode h⟩
    exact ⟨hlength, hprotocol, infoHash_eq_iff.1 hsame⟩
  · rintro ⟨hlength, hprotocol, hsame⟩
    obtain ⟨h, hdecode⟩ := exists_decode_iff.2 ⟨hlength, hprotocol⟩
    obtain rfl := decode_eq_ok_iff.1 hdecode
    exact ⟨h, accept_eq_ok_iff.2 ⟨infoHash_eq_iff.2 hsame, rfl⟩⟩

/-- Greetings and their written forms correspond.  Every greeting is written with its fields one
behind the other, and read back as it was.  Bytes are read as a greeting exactly where there are 68
of them with the protocol in front, and as the one greeting that is written so.  They answer ours
exactly where, besides, the twenty bytes behind the first 28 name our torrent, whatever the reserved
bytes and the names of the two senders are. -/
theorem spelled_one_to_one :
    (∀ h : Handshake, decode h.encode = .ok h ∧ h.encode.length = size ∧
      h.encode.take 20 = protocol ∧ (h.encode.drop 20).take 8 = h.reserved.bytes ∧
      (h.encode.drop 28).take 20 = h.infoHash.octets.bytes ∧
      h.encode.drop 48 = h.peerId.octets.bytes) ∧
    (∀ bytes : Bytes,
      ((∃ h, decode bytes = .ok h) ↔ bytes.length = size ∧ protocol <+: bytes) ∧
      ∀ h, decode bytes = .ok h ↔ h.encode = bytes) ∧
    ∀ (ours : Handshake) (bytes : Bytes),
      ((∃ h, ours.accept bytes = .ok h) ↔ bytes.length = size ∧ protocol <+: bytes ∧
        (bytes.drop 28).take 20 = ours.infoHash.octets.bytes) ∧
      (∀ h, ours.accept bytes = .ok h ↔ h.infoHash = ours.infoHash ∧ bytes = h.encode) ∧
      ∀ reserved peerId,
        accept ⟨reserved, ours.infoHash, peerId⟩ bytes = ours.accept bytes := by
  refine ⟨fun h => ⟨decode_encode h, h.length_encode, h.fields_encode⟩,
    fun bytes => ⟨exists_decode_iff, fun h => decode_eq_ok_iff⟩,
    fun ours bytes => ⟨exists_accept_iff, fun h => accept_eq_ok_iff, fun reserved peerId => ?_⟩⟩
  simp only [accept]

end Torrent.Handshake
