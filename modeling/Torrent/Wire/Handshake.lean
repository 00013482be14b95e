import Torrent.Wire.Error

/-!
# The greeting

Both sides open with 68 bytes: the length and name of the protocol, eight
reserved bytes, the name of the torrent and the name of the sender.  A greeting
is accepted when the protocol and the torrent are ours; the reserved bytes and
the sender may be anything.  A wrong protocol is reported before a wrong torrent.

`decode_encode` and `encode_of_decode` say that greetings and their written
forms correspond one to one.
-/

namespace Torrent

/-- A greeting. -/
structure Handshake where
  /-- Bytes for extensions, zero in a greeting of ours. -/
  reserved : Octets 8
  infoHash : InfoHash
  peerId : PeerId
deriving DecidableEq

namespace Handshake

/-- The name of the protocol behind its length. -/
def protocol : Bytes := 19 :: Bytes.ofText "BitTorrent protocol"

/-- The length of a greeting. -/
def size : Nat := 68

/-- Our greeting, with nothing reserved. -/
def ours (infoHash : InfoHash) (peerId : PeerId) : Handshake := ⟨Octets.zero 8, infoHash, peerId⟩

/-- The 68 bytes of a greeting. -/
def encode (h : Handshake) : Bytes :=
  protocol ++ h.reserved.bytes ++ h.infoHash.octets.bytes ++ h.peerId.octets.bytes

/-- The greeting that bytes spell. -/
def decode (bytes : Bytes) : Except HandshakeFailure Handshake :=
  if h : bytes.length = 68 then
    if bytes.take 20 = protocol then
      .ok
        { reserved := ⟨(bytes.drop 20).take 8, by simp; omega⟩
          infoHash := ⟨(bytes.drop 28).take 20, by simp; omega⟩
          peerId := ⟨(bytes.drop 48).take 20, by simp; omega⟩ }
    else .error .wrongProtocol
  else .error (.invalidLength bytes.length)

theorem length_protocol : protocol.length = 20 := by decide +kernel

theorem length_encode (h : Handshake) : h.encode.length = size := by
  simp [encode, size, length_protocol, h.reserved.length_eq, h.infoHash.octets.length_eq,
    h.peerId.octets.length_eq]

theorem decode_encode (h : Handshake) : decode h.encode = .ok h := by
  have hlen := h.length_encode
  obtain ⟨⟨r, hr⟩, ⟨⟨i, hi⟩⟩, ⟨⟨p, hp⟩⟩⟩ := h
  rw [decode, dif_pos (by simpa only [size] using hlen)]
  simp [encode, List.drop_append, length_protocol, hr, hi, hp, List.take_of_length_le,
    List.drop_eq_nil_of_le]

/-- Only what is written of a greeting is read as one. -/
theorem encode_of_decode {bytes : Bytes} {h : Handshake} (hd : decode bytes = .ok h) :
    h.encode = bytes := by
  have split (k n : Nat) : (bytes.drop k).take n ++ bytes.drop (k + n) = bytes.drop k := by
    rw [← List.drop_drop, List.take_append_drop]
  unfold decode at hd
  split at hd
  case isFalse => cases hd
  case isTrue hlen =>
    split at hd
    case isFalse => cases hd
    case isTrue hprotocol =>
      cases hd
      have last : (bytes.drop 48).take 20 = bytes.drop 48 :=
        List.take_of_length_le (by simp; omega)
      simp only [encode, List.append_assoc, last, split 28 20, split 20 8, ← hprotocol]
      exact List.take_append_drop 20 bytes

/-- The greeting that bytes spell, if it answers ours. -/
def accept (sent : Handshake) (bytes : Bytes) : Except HandshakeFailure Handshake :=
  match decode bytes with
  | .error failure => .error failure
  | .ok received =>
    if received.infoHash = sent.infoHash then .ok received else .error .infoHashMismatch

end Handshake

end Torrent
