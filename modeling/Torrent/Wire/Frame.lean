import Torrent.Wire.Error

/-!
# Frames

A message travels as a length word, the number of its kind and its payload.  The
length counts the number and the payload.  A keep-alive is the bare length zero.

`Frame.decode` reads one frame from the front of a byte string and ignores what
follows it.  `decode_encode` says that a written message is read back in its
canonical form (`Message.canonical`), for every payload whose length fits the
length word.
-/

namespace Torrent

/-- The message as it comes back from the wire: a keep-alive has no payload, and a kind is known by
its number alone. -/
def Message.canonical (m : Message) : Message :=
  match m.kind.id? with
  | none => .keepAlive
  | some id => ⟨.ofId id, m.payload⟩

namespace Frame

/-- The frame of a message.  The length is a 32-bit word and wraps. -/
def encode (m : Message) : Bytes :=
  match m.kind.id? with
  | none => BigEndian.toBytes 0
  | some id => BigEndian.toBytes (1 + UInt32.ofNat m.payload.length) ++ id :: m.payload

/-- The message of a frame's content, which is the number of its kind and its payload.  A frame
without content is a keep-alive. -/
def ofBody : Bytes → Message
  | [] => .keepAlive
  | id :: payload => ⟨.ofId id, payload⟩

/-- The message of the frame at the front of a byte string. -/
def decode (bytes : Bytes) : Except Violation Message :=
  if bytes.length < 4 then .error (.shortFrame bytes.length)
  else
    let declared := (BigEndian.ofBytes bytes).toNat
    if bytes.length < 4 + declared then .error (.cutFrame declared (bytes.length - 4))
    else .ok (ofBody ((bytes.drop 4).take declared))

/-- A written message is read back in its canonical form, whatever follows it. -/
theorem decode_encode (m : Message) (rest : Bytes) (h : m.payload.length < UInt32.size - 1) :
    decode (encode m ++ rest) = .ok m.canonical := by
  cases hid : m.kind.id? with
  | none =>
    simp only [encode, Message.canonical, hid, decode, BigEndian.ofBytes_toBytes]
    rw [if_neg (by simp), if_neg (by simp)]
    simp [ofBody]
  | some id =>
    have hword : (1 + UInt32.ofNat m.payload.length).toNat = m.payload.length + 1 := by
      simp only [UInt32.size] at h
      simp [UInt32.toNat_add]
      omega
    have hdrop (w : UInt32) (tail : Bytes) : (BigEndian.toBytes w ++ tail).drop 4 = tail := by
      simp [BigEndian.toBytes]
    simp only [encode, Message.canonical, hid, decode, List.append_assoc, BigEndian.ofBytes_toBytes,
      hword, hdrop]
    rw [if_neg (by simp), if_neg (by simp)]
    simp [ofBody]

end Frame

end Torrent
