import Torrent.Bytes.Basic

/-!
# Words of four bytes

A 32-bit word is written with its highest byte first.  `ofBytes_toBytes` reads
a written word back, and `toBytes_ofBytes` writes four bytes again as they were
read.
-/

namespace Torrent.BigEndian

/-- The four bytes of a word, highest first. -/
def toBytes (w : UInt32) : Bytes :=
  [UInt8.ofNat (w.toNat / 0x1000000), UInt8.ofNat (w.toNat / 0x10000),
    UInt8.ofNat (w.toNat / 0x100), UInt8.ofNat w.toNat]

/-- The number that bytes spell, highest first. -/
def toNat (bytes : Bytes) : Nat := bytes.foldl (fun n b => n * 256 + b.toNat) 0

/-- The word that the first four bytes spell. -/
def ofBytes (bytes : Bytes) : UInt32 := UInt32.ofNat (toNat (bytes.take 4))

@[simp] theorem length_toBytes (w : UInt32) : (toBytes w).length = 4 := rfl

theorem ofBytes_toBytes (w : UInt32) (rest : Bytes) : ofBytes (toBytes w ++ rest) = w := by
  apply UInt32.toNat_inj.1
  have := w.toNat_lt
  simp [ofBytes, toBytes, toNat]
  omega

theorem toBytes_ofBytes {bytes : Bytes} (h : bytes.length = 4) :
    toBytes (ofBytes bytes) = bytes := by
  match bytes, h with
  | [a, b, c, d], _ =>
    have ha := a.toNat_lt
    have hb := b.toNat_lt
    have hc := c.toNat_lt
    have hd := d.toNat_lt
    simp only [toBytes, ofBytes, toNat, List.take, List.foldl, List.cons.injEq, and_true]
    refine ⟨?_, ?_, ?_, ?_⟩ <;> apply UInt8.toNat_inj.1 <;> simp <;> omega

end Torrent.BigEndian
