import Torrent.Proofs.Store.Trimmed
import Torrent.Proofs.Stream.Writing

/-!
# Requests that are served

A peer chooses all three numbers of a request.  Whatever it chooses, it gets one
block or nothing (`Connection.request_served`), and a block only of a piece that
is there, from inside the piece and inside the files, and with the bytes that the
files have at its positions (`Store.Offers`).

The numbers are computed in 64-bit words.  `Store.Exact` says that no word
overflows on the way, for any request: what the words come to is what the numbers
come to.
-/

namespace Torrent

/-! ## Arithmetic in words -/

/-- The segments of a range, computed in 64-bit words. -/
def wordSegments : Nat → List UInt64 → UInt64 → UInt64 → Option (List Segment)
  | _, [], _, length => if length = 0 then some [] else none
  | file, size :: rest, start, length =>
    if length = 0 then some []
    else if size ≤ start then wordSegments (file + 1) rest (start - size) length
    else
      let here := min (size - start) length
      (wordSegments (file + 1) rest 0 (length - here)).map
        (⟨file, start.toNat, here.toNat⟩ :: ·)

/-- The segments come out in words as they do in numbers. -/
theorem wordSegments_eq (file : Nat) (sizes : List UInt64) (start length : UInt64) :
    wordSegments file sizes start length =
      segmentsFrom file (sizes.map UInt64.toNat) start.toNat length.toNat := by
  induction sizes generalizing file start length with
  | nil =>
      unfold wordSegments segmentsFrom
      simp only [List.map_nil, ← UInt64.toNat_inj, UInt64.toNat_zero]
  | cons size rest ih =>
      unfold wordSegments segmentsFrom
      have hzero : length = 0 ↔ length.toNat = 0 := UInt64.toNat_inj.symm
      simp only [List.map_cons, hzero, UInt64.le_iff_toNat_le]
      split
      next => rfl
      next =>
        split
        next hbehind =>
          rw [ih, UInt64.toNat_sub_of_le _ _ (UInt64.le_iff_toNat_le.2 hbehind)]
        next hwithin =>
          have hleft : (size - start).toNat = size.toNat - start.toNat :=
            UInt64.toNat_sub_of_le _ _ (UInt64.le_iff_toNat_le.2 (by omega))
          have hhere : (min (size - start) length).toNat =
              min (size.toNat - start.toNat) length.toNat := by
            rw [Store.toNat_min, hleft]
          have hrest : (length - min (size - start) length).toNat =
              length.toNat - min (size.toNat - start.toNat) length.toNat := by
            rw [UInt64.toNat_sub_of_le, hhere]
            rw [UInt64.le_iff_toNat_le, hhere]
            exact Nat.min_le_right _ _
          rw [ih, hhere, hrest]
          rfl

namespace Store

variable {s s' : Store} {t t' : FileTree} {d : Descriptor} {r : BlockRequest} {block : Bytes}

/-- No 64-bit word overflows where a request is looked up: its start and its end, what is left of
the torrent, and the way through the files. -/
structure Exact (s : Store) (r : BlockRequest) : Prop where
  pieceStart : (s.pieceStart r.index).toNat = r.index.toNat * s.pieceLength.toNat
  start : (s.pieceStart r.index + r.start.toUInt64).toNat =
    r.index.toNat * s.pieceLength.toNat + r.start.toNat
  stop : (r.start.toUInt64 + r.length.toUInt64).toNat = r.start.toNat + r.length.toNat
  left : s.pieceStart r.index < s.totalLength →
    (s.totalLength - s.pieceStart r.index).toNat =
      s.totalLength.toNat - r.index.toNat * s.pieceLength.toNat
  segments : wordSegments 0 (s.slots.map Slot.length) (s.pieceStart r.index + r.start.toUInt64)
      r.length.toUInt64 =
    s.segments? (r.index.toNat * s.pieceLength.toNat + r.start.toNat) r.length.toNat

/-- No word overflows on any request. -/
theorem exact_of_fits (hfits : s.Fits d) (hd : d.Sound) (r : BlockRequest) : s.Exact r := by
  have hindex := r.index.toNat_lt
  have hstart := r.start.toNat_lt
  have hlength := r.length.toNat_lt
  have hpiece : s.pieceLength.toNat < UInt32.size := hfits.pieceLength ▸ hd.pieceLength_lt
  have hproduct : r.index.toNat * s.pieceLength.toNat ≤ (2 ^ 32 - 1) * (2 ^ 32 - 1) :=
    Nat.mul_le_mul (by omega) (Nat.le_sub_one_of_lt hpiece)
  have hpieceStart : (s.pieceStart r.index).toNat = r.index.toNat * s.pieceLength.toNat := by
    rw [Store.pieceStart, UInt64.toNat_mul, UInt32.toNat_toUInt64]
    exact Nat.mod_eq_of_lt (by omega)
  have hsum : (s.pieceStart r.index + r.start.toUInt64).toNat =
      r.index.toNat * s.pieceLength.toNat + r.start.toNat := by
    rw [UInt64.toNat_add, hpieceStart, UInt32.toNat_toUInt64]
    exact Nat.mod_eq_of_lt (by omega)
  refine ⟨hpieceStart, hsum, ?_, fun hlt => ?_, ?_⟩
  · rw [UInt64.toNat_add, UInt32.toNat_toUInt64, UInt32.toNat_toUInt64]
    exact Nat.mod_eq_of_lt (by omega)
  · rw [UInt64.toNat_sub_of_le _ _ (UInt64.le_of_lt hlt), hpieceStart]
  · rw [wordSegments_eq, hsum, UInt32.toNat_toUInt64, List.map_map]
    rfl

/-! ## What a store offers -/

/-- What a store that nobody else uses answers to a request. -/
def serve (s : Store) (t : FileTree) : Serve :=
  fun r => (s.readBlock t r.index r.start.toNat r.length.toNat).1

/-- A block that a store may give for a request.  The piece is there and the stretch lies in it.
The block has the stored bytes of the stretch, each from inside the file that has its position. -/
structure Offers (s : Store) (d : Descriptor) (t : FileTree) (r : BlockRequest) (block : Bytes) :
    Prop where
  index_lt : r.index.toNat < d.pieceCount
  complete : s.hasPiece r.index = true
  length_pos : 1 ≤ r.length.toNat
  within : r.start.toNat + r.length.toNat ≤ d.lengthAt r.index.toNat
  length_eq : block.length = r.length.toNat
  stored : ∀ k b, block[k]? = some b → ∃ n file place id,
    d.files[n]? = some file ∧ place < file.length.toNat ∧
    ((d.files.take n).map fun f => f.length.toNat).sum + place =
      r.index.toNat * d.pieceLength.toNat + r.start.toNat + k ∧
    s.Reaches t n id ∧ (t.content id)[place]? = some b

/-- What a store answers is a block that it may give. -/
theorem offers_of_serve (hfits : s.Fits d) (hd : d.Sound)
    (hlengths : s.lengths = d.files.map fun file => file.length.toNat)
    (h : s.serve t r = some block) : ∃ t', t.Extends t' ∧ s.Offers d t' r block := by
  obtain ⟨⟨result, s', t'⟩, hread⟩ :
      ∃ x, s.readBlock t r.index r.start.toNat r.length.toNat = x := ⟨_, rfl⟩
  rw [serve, hread] at h
  obtain rfl : result = some block := h
  obtain ⟨hbit, hpos, hlength, hextends, ⟨pieceLen, hpiece, hend⟩, gs, hsegments, hchunks⟩ :=
    readBlock_eq_some hread
  have hi : r.index.toNat < d.pieceCount := hfits.lt_of_pieceLen? hpiece
  obtain ⟨pieceLen', hpiece', hat⟩ := hfits.pieceLen?_eq hd hi
  rw [hpiece] at hpiece'
  cases hpiece'
  rw [← hlength] at hsegments
  have hwalk : Walk 0 s.lengths _ block.length gs := .of_segmentsFrom hsegments
  refine ⟨t', hextends, hi, hbit, hpos, hat ▸ hend, hlength, fun k b hb => ?_⟩
  obtain ⟨n, place, size, id, hsize, hplace, hposition, hreaches, hbyte⟩ :=
    hwalk.byte (fun c hc => (hchunks c hc).imp fun id hid => ⟨hid.1, hid.2.1⟩) hb
  rw [hlengths, List.getElem?_map] at hsize
  obtain ⟨file, hfile, rfl⟩ := Option.map_eq_some_iff.1 hsize
  rw [hlengths, offset, ← List.map_take, hfits.toNat_pieceStart hd r.index] at hposition
  exact ⟨n, file, place, id, hfile, hplace, hposition, hreaches, hbyte⟩

end Store

/-! ## What a peer gets -/

namespace Connection

variable {c : Connection} {a : Attempt}

/-- A request of the peer is refused, left without an answer, or answered with the block that is
served for it. -/
theorem handle_request (c : Connection) (a : Attempt) (serve : Serve) (stopwatch : Nat)
    {m : Message} (hkind : m.kind = .request) :
    let done := c.handle a serve stopwatch m
    (∃ cause, m.blockRequest = .error cause ∧ done = (.error (.violation cause), c)) ∨
      ∃ r, m.blockRequest = .ok r ∧
        ((Attempt.longestServed < r.length ∨ serve r = none) ∧ done = (.ok a, c) ∨
          r.length ≤ Attempt.longestServed ∧ ∃ block, serve r = some block ∧
            done.2 = (c.send (.piece r.index r.start block)).2 ∧
            (done.1 = .ok a ↔ (c.send (.piece r.index r.start block)).1 = .ok ())) := by
  intro done
  cases hrequest : m.blockRequest with
  | error cause =>
      refine .inl ⟨cause, rfl, ?_⟩
      simp only [done, handle, Attempt.handle, hkind, hrequest]
  | ok r =>
      refine .inr ⟨r, rfl, ?_⟩
      simp only [done, handle, Attempt.handle, hkind, hrequest]
      by_cases hlong : Attempt.longestServed < r.length
      · rw [if_pos hlong]
        exact .inl ⟨.inl hlong, rfl⟩
      rw [if_neg hlong, Option.bind_some]
      cases hserve : serve r with
      | none => exact .inl ⟨.inr rfl, rfl⟩
      | some block =>
          refine .inr ⟨UInt32.not_lt.1 hlong, block, rfl, ?_⟩
          simp only [Option.map_some]
          split
          next hfailed =>
            rw [hfailed]
            exact ⟨rfl, by simp⟩
          next hsent =>
            rw [hsent]
            exact ⟨rfl, fun _ => rfl, fun _ => rfl⟩

/-- The frame of a block that is not too long is read back as that block. -/
theorem decode_encode_piece (index : PieceIndex) (start : UInt32) {block : Bytes}
    (h : block.length ≤ Attempt.longestServed.toNat) :
    Frame.decode (Frame.encode (.piece index start block)) = .ok (.piece index start block) := by
  have hlongest : Attempt.longestServed.toNat = 131072 := rfl
  have hpayload : (Message.piece index start block).payload.length = 8 + block.length := by
    simp [Message.piece]
    omega
  have hdecode := Frame.decode_encode (.piece index start block) []
    (by rw [hpayload, UInt32.size]; omega)
  rwa [List.append_nil] at hdecode

/-- Whatever payload a request has, and whatever store serves it, the peer gets nothing or one piece
frame that repeats the index and the start it asked for.  It gets the frame only for a stretch of at
most 128 KiB that the store may give.  Nothing outside the files is read for a request, also when
nothing comes of it, and no word overflows. -/
theorem request_served {d : Descriptor} (hcheck : d.check = .ok ()) {s : Store} (hfits : s.Fits d)
    (hlengths : s.lengths = d.files.map fun file => file.length.toNat) (t : FileTree)
    (c : Connection) (a : Attempt) (stopwatch : Nat) (payload : Bytes) :
    let m : Message := ⟨.request, payload⟩
    let done := c.handle a (s.serve t) stopwatch m
    (done.2 = c ∨ ∃ r block t', m.blockRequest = .ok r ∧ r.length.toNat ≤ 131072 ∧
      t.Extends t' ∧ s.Offers d t' r block ∧
      let frame := Frame.encode (.piece r.index r.start block)
      Frame.decode frame = .ok (.piece r.index r.start block) ∧
      done.2.stream.sent = c.stream.sent ++ frame.take (c.stream.accepts frame.length) ∧
      (done.1 = .ok a ↔ frame.length ≤ c.stream.accepts frame.length)) ∧
    ∀ r, m.blockRequest = .ok r →
      s.Exact r ∧ (s.read r.index r.start.toNat r.length.toNat).Within s := by
  intro m done
  have hd : d.Sound := Descriptor.sound_of_check hcheck
  refine ⟨?_, fun r _ => ⟨Store.exact_of_fits hfits hd r, Reading.within_read hfits hd _ _ _⟩⟩
  rcases handle_request c a (s.serve t) stopwatch (m := m) rfl with
    ⟨cause, -, hdone⟩ | ⟨r, hrequest, ⟨-, hdone⟩ | ⟨hlongest, block, hserve, hafter, hok⟩⟩
  · exact .inl (congrArg Prod.snd hdone)
  · exact .inl (congrArg Prod.snd hdone)
  · have hlength : r.length.toNat ≤ 131072 := UInt32.le_iff_toNat_le.1 hlongest
    obtain ⟨t', hextends, hoffers⟩ := Store.offers_of_serve hfits hd hlengths hserve
    obtain ⟨hsend, htaken⟩ := c.send_eq (.piece r.index r.start block)
    refine .inr ⟨r, block, t', hrequest, hlength, hextends, hoffers, ?_, ?_, hok.trans htaken⟩
    · exact decode_encode_piece _ _ (hoffers.length_eq ▸ hlength)
    · rw [hafter, hsend]
      rfl

/-- Two bytes are asked for that lie in two files, and they are sent. -/
theorem request_served_two_files :
    let d : Descriptor := ⟨⟨.zero 20⟩, 4, 3, [.zero 20, .zero 20], [⟨"a", 1⟩, ⟨"b", 3⟩]⟩
    let slots : List Slot := [⟨['t', '/', 'a'], 1, none⟩, ⟨['t', '/', 'b'], 3, none⟩]
    let s : Store := ⟨['t'], ['t', '/', 'r'], 3, 4, 2, slots, 2, false, ⟨[0x80]⟩⟩
    let t : FileTree := ⟨[([['t']], .directory), ([['t'], ['a']], .file 0),
      ([['t'], ['b']], .file 1)], [[5], [6, 7, 8], [0x80]], [], by decide, by decide⟩
    let session : Session := .opened ⟨.short ⟨127, 0, 0, 1⟩, 6881⟩ ⟨.zero 20⟩ ⟨[]⟩ 0
    let c : Connection := ⟨session, .start [] .silent none none, 64⟩
    let a : Attempt := .start ⟨1, .zero 20, 1⟩ 16384
    let m : Message := ⟨.request, Message.stretch 0 0 2⟩
    let done := c.handle a (s.serve t) 0 m
    d.check = .ok () ∧ s.Fits d ∧ (s.lengths = d.files.map fun file => file.length.toNat) ∧
      done.2.stream.sent = Frame.encode (.piece 0 0 [5, 6]) ∧
      (done.2 = c ∨ ∃ r block t', m.blockRequest = .ok r ∧ r.length.toNat ≤ 131072 ∧
        t.Extends t' ∧ s.Offers d t' r block ∧
        let frame := Frame.encode (.piece r.index r.start block)
        Frame.decode frame = .ok (.piece r.index r.start block) ∧
        done.2.stream.sent = c.stream.sent ++ frame.take (c.stream.accepts frame.length) ∧
        (done.1 = .ok a ↔ frame.length ≤ c.stream.accepts frame.length)) ∧
      ∀ r, m.blockRequest = .ok r →
        s.Exact r ∧ (s.read r.index r.start.toNat r.length.toNat).Within s := by
  intro d slots s t session c a m done
  have hcheck : d.check = .ok () := by decide +kernel
  have hfits : s.Fits d := ⟨rfl, rfl, rfl⟩
  exact ⟨hcheck, hfits, rfl, by decide +kernel,
    request_served hcheck hfits rfl t c a 0 m.payload⟩

end Connection

end Torrent
