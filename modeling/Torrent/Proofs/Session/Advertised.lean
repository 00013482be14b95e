import Mathlib.Data.List.DropRight
import Torrent.Proofs.Attempt.Turns
import Torrent.Proofs.Bytes.Stretch
import Torrent.Proofs.Wire.Payload

/-!
# The pieces that a peer advertises

A peer tells which pieces it has with bitmaps and with single announcements.  A
bitmap replaces what it told before, and an announcement adds one piece to it.

What one message does is said once (`Connection.pieces_of_handle`), and nothing else
that happens over a connection touches the pieces of the peer.  So what a session
knows at any time is the latest bitmap with the announcements behind it
(`Connection.Hears.has_iff`).  A bitmap that is too short for an announcement is
filled up with clear bits, and reads as before (`Bitfield.bit_growFor`).
-/

namespace Torrent

namespace Bitfield

/-- The pieces of a bitmap, bit by bit. -/
theorem has_iff {f : Bitfield} {j : PieceIndex} :
    f.has j = true ↔ ∃ byte, f.bytes[j.toNat / 8]? = some byte ∧
      byte.toNat.testBit (7 - j.toNat % 8) = true := by
  rw [has, bit_eq]
  cases f.bytes[j.toNat / 8]? with
  | none => simp
  | some byte => simp [bitOfByte]

/-- A bitmap that grows reads as before. -/
theorem bit_growFor (f : Bitfield) (i : PieceIndex) (k : Nat) : (f.growFor i).bit k = f.bit k := by
  rw [bit_eq, bit_eq, growFor, Bytes.getElem?_padTo]
  by_cases hold : k / 8 < f.bytes.length
  · rw [if_pos hold]
  · rw [if_neg hold, List.getElem?_eq_none (Nat.le_of_not_lt hold)]
    by_cases hnew : k / 8 < byteLength (i.toNat + 1)
    · rw [if_pos hnew]
      simp [bitOfByte]
    · rw [if_neg hnew]

theorem length_growFor (f : Bitfield) (i : PieceIndex) :
    i.toNat / 8 < (f.growFor i).bytes.length := by
  simp only [growFor, Bytes.padTo, List.length_append, Bytes.length_zeros, byteLength]
  omega

/-- An announcement adds the piece and no other. -/
theorem has_insert_growFor (f : Bitfield) (i j : PieceIndex) :
    ((f.growFor i).insert i).has j = true ↔ f.has j = true ∨ j = i := by
  rw [has, bit_insert, bit_growFor, Bool.or_eq_true, decide_eq_true_iff]
  refine or_congr Iff.rfl ⟨fun h => UInt32.toNat_inj.1 h.1, ?_⟩
  rintro rfl
  exact ⟨rfl, f.length_growFor j⟩

end Bitfield

/-! ## What was told -/

/-- Whether a message is a bitmap. -/
def Message.isBitmap (m : Message) : Bool := m.kind = .bitfield

/-- The latest bitmap of a peer that began with the bitmap `first`. -/
def latestBitmap (first : Bytes) (ms : List Message) : Bytes :=
  (((ms.filter Message.isBitmap).getLast?).map Message.payload).getD first

/-- The messages behind the latest bitmap. -/
def sinceBitmap (ms : List Message) : List Message := ms.rtakeWhile fun m => !m.isBitmap

/-- Whether a peer that began with the bitmap `first` has told that it has a piece: in its latest
bitmap, where the first piece is the highest bit of the first byte, or since. -/
def Advertised (first : Bytes) (ms : List Message) (j : PieceIndex) : Prop :=
  (∃ byte, (latestBitmap first ms)[j.toNat / 8]? = some byte ∧
    byte.toNat.testBit (7 - j.toNat % 8) = true) ∨
  .have_ j ∈ sinceBitmap ms

section

variable {first : Bytes} {ms : List Message} {m : Message} {i j : PieceIndex}

theorem advertised_bitmap (hm : m.kind = .bitfield) :
    Advertised first (ms ++ [m]) j ↔ (Bitfield.mk m.payload).has j = true := by
  have hbitmap : m.isBitmap = true := decide_eq_true hm
  have hlatest : latestBitmap first (ms ++ [m]) = m.payload := by
    simp [latestBitmap, List.filter_append, hbitmap]
  have hsince : sinceBitmap (ms ++ [m]) = [] := List.rtakeWhile_concat_neg _ _ _ (by simp [hbitmap])
  rw [Advertised, hlatest, hsince, Bitfield.has_iff]
  simp

/-- A message that is no bitmap is one more message behind the latest. -/
theorem advertised_concat (hm : m.kind ≠ .bitfield) :
    Advertised first (ms ++ [m]) j ↔ Advertised first ms j ∨ .have_ j = m := by
  have hbitmap : m.isBitmap = false := decide_eq_false hm
  have hlatest : latestBitmap first (ms ++ [m]) = latestBitmap first ms := by
    simp [latestBitmap, List.filter_append, hbitmap]
  have hsince : sinceBitmap (ms ++ [m]) = sinceBitmap ms ++ [m] :=
    List.rtakeWhile_concat_pos _ _ _ (by simp [hbitmap])
  rw [Advertised, Advertised, hlatest, hsince, List.mem_append, List.mem_singleton, or_assoc]

end

/-! ## What a session knows -/

namespace Connection

variable {c d : Connection} {a a' : Attempt} {serve : Serve} {stopwatch : Nat} {m : Message}
  {ms : List Message}

/-- What a message does to the pieces of the peer: a bitmap replaces them, an announcement adds one,
and no other message touches them. -/
theorem pieces_of_handle (h : c.handle a serve stopwatch m = (.ok a', d)) :
    m.kind = .bitfield ∧ d.session.pieces = ⟨m.payload⟩ ∨
    (∃ i, m = .have_ i ∧ d.session.pieces = (c.session.pieces.growFor i).insert i) ∨
    m.kind ≠ .bitfield ∧ m.kind ≠ .have_ ∧ d.session.pieces = c.session.pieces := by
  obtain ⟨⟨request, heffect⟩, -, -⟩ := attempt_of_handle h
  generalize d.session = s at heffect ⊢
  simp only [Attempt.handle] at heffect
  cases hkind : m.kind with
  | bitfield =>
      simp only [hkind] at heffect
      cases heffect
      exact .inl ⟨rfl, rfl⟩
  | have_ =>
      simp only [hkind] at heffect
      cases hindex : m.haveIndex with
      | error cause =>
          rw [hindex] at heffect
          cases heffect
      | ok i =>
          rw [hindex] at heffect
          cases heffect
          exact .inr (.inl ⟨i, Message.haveIndex_eq_ok_iff.1 hindex, rfl⟩)
  | piece =>
      simp only [hkind] at heffect
      split at heffect
      next => cases heffect
      next =>
        cases heffect
        exact .inr (.inr ⟨by simp, by simp, rfl⟩)
  | request =>
      simp only [hkind] at heffect
      split at heffect
      next => cases heffect
      next =>
        cases heffect
        exact .inr (.inr ⟨by simp, by simp, rfl⟩)
  | choke | unchoke | keepAlive | interested | notInterested | cancel | other id =>
      simp only [hkind] at heffect
      cases heffect
      exact .inr (.inr ⟨by simp, by simp, rfl⟩)

/-- Bitmaps and announcements are always obeyed. -/
theorem handle_telling (c : Connection) (a : Attempt) (serve : Serve) (stopwatch : Nat)
    (hm : (∃ bits, m = .bitfield bits) ∨ ∃ i, m = .have_ i) :
    ∃ d, c.handle a serve stopwatch m = (.ok a, d) := by
  obtain ⟨bits, rfl⟩ | ⟨i, rfl⟩ := hm
  · exact ⟨_, rfl⟩
  · have heffect : a.handle c.session stopwatch (.have_ i) =
        .ok (a, c.session.markHave i, none) := by
      simp only [Attempt.handle, Message.haveIndex_have]
      rfl
    rw [handle, heffect]
    exact ⟨_, rfl⟩

/-- What a connection comes to when messages of the peer are obeyed one after the other, by whatever
attempts at whatever times, and anything else is done in between. -/
inductive Hears (c : Connection) : List Message → Connection → Prop
  | start : Hears c [] c
  | obeys {ms : List Message} {d e : Connection} {a a' : Attempt} {serve : Serve} {stopwatch : Nat}
    {m : Message} (h : Hears c ms d) (hobeyed : d.handle a serve stopwatch m = (.ok a', e)) :
    Hears c (ms ++ [m]) e
  | reads {ms : List Message} {d : Connection} (h : Hears c ms d) (deadline : Option Nat) :
    Hears c ms (d.read deadline).2
  | sends {ms : List Message} {d : Connection} (h : Hears c ms d) (m : Message) :
    Hears c ms (d.send m).2
  | announces {ms : List Message} {d : Connection} (h : Hears c ms d) : Hears c ms d.announce.2
  | closes {ms : List Message} {d : Connection} (h : Hears c ms d) : Hears c ms d.shutdown

theorem pieces_announce (c : Connection) : c.announce.2.session.pieces = c.session.pieces := by
  simp only [announce]
  split
  next => rfl
  next =>
    have hunchoke := (sent_send c .unchoke).1
    split
    next c₁ hsent =>
      rw [hsent] at hunchoke
      rw [hunchoke]
    next c₁ hsent =>
      rw [hsent] at hunchoke
      have hinterested := (sent_send c₁ .interested).1
      split
      next c₂ hsent' =>
        rw [hsent'] at hinterested
        rw [hinterested, hunchoke]
      next c₂ hsent' =>
        rw [hsent'] at hinterested
        dsimp only at hinterested ⊢
        rw [hinterested, hunchoke]

/-- What a session knows is what its peer has advertised. -/
theorem Hears.has_iff (h : c.Hears ms d) (j : PieceIndex) :
    d.session.hasPiece j = true ↔ Advertised c.session.pieces.bytes ms j := by
  induction h with
  | start =>
      rw [Session.hasPiece, Bitfield.has_iff]
      simp [Advertised, latestBitmap, sinceBitmap]
  | @obeys ms d e a a' serve stopwatch m hms hobeyed ih =>
      rw [Session.hasPiece] at ih ⊢
      obtain ⟨hkind, hpieces⟩ | ⟨i, rfl, hpieces⟩ | ⟨hbitmap, hhave, hpieces⟩ :=
        pieces_of_handle hobeyed
      · rw [hpieces, advertised_bitmap hkind]
      · have hkind : (Message.have_ i).kind ≠ .bitfield := by simp [Message.have_]
        rw [hpieces, Bitfield.has_insert_growFor, ih, advertised_concat hkind, Message.have_inj]
      · have hother : .have_ j ≠ m := fun hm => hhave (congrArg Message.kind hm).symm
        rw [hpieces, ih, advertised_concat hbitmap, or_iff_left hother]
  | reads hms deadline ih => exact ih
  | @sends ms d hms m ih =>
      rw [(sent_send d m).1]
      exact ih
  | @announces ms d hms ih =>
      rw [Session.hasPiece, pieces_announce]
      exact ih
  | closes hms ih => exact ih

/-! ## While a piece is fetched -/

/-- Requests that go out are things done in between. -/
theorem Hears.requestBlocks (h : c.Hears ms d) (a : Attempt) (n : Nat) :
    c.Hears ms (d.requestBlocks a n).2 := by
  induction n generalizing d a with
  | zero => exact h
  | succ n ih =>
      rw [Connection.requestBlocks]
      split
      next => exact h
      next r _ =>
        have hsent := h.sends (.request r.index r.start r.length)
        split
        next hfailed =>
          rw [hfailed] at hsent
          exact hsent
        next hdone =>
          rw [hdone] at hsent
          exact ih hsent _

/-- The messages of the turns in which a piece is fetched are obeyed one after the other. -/
theorem Turns.hears {moments : Nat → Moment} {k : Nat} (h : Turns moments k c a ms d a') :
    c.Hears ms d := by
  induction h with
  | start => exact .start
  | @turn ms m c₁ c₂ a₁ a₂ hturns hturn ih =>
      obtain ⟨-, hrequests, hread, hobeyed⟩ := hturn
      have hasked := ih.requestBlocks { a₁ with state := .requesting } a₁.spec.length.toNat
      rw [hrequests] at hasked
      have hgot := hasked.reads none
      rw [hread] at hgot
      exact hgot.obeys hobeyed

/-- After any messages in a session, in whatever way they were obeyed and whatever was done in
between, the peer is known to have a piece exactly if its bit is set in the latest bitmap that it
sent, which is the one of the session where none came, or the piece was announced since.  The
messages that come while a piece is fetched are obeyed in this way.  Bitmaps of any length and
announcements of any piece are always obeyed.  A bitmap that grows for an announcement has the bits
that it had, and an announcement changes the answer for its own piece alone. -/
theorem advertised_pieces (c : Connection) :
    (∀ ms d, c.Hears ms d → ∀ j : PieceIndex,
      d.session.hasPiece j = true ↔ Advertised c.session.pieces.bytes ms j) ∧
    (∀ moments k a ms d a', Turns moments k c a ms d a' → c.Hears ms d) ∧
    (∀ a serve stopwatch m, ((∃ bits, m = .bitfield bits) ∨ ∃ i, m = .have_ i) →
      ∃ d, c.handle a serve stopwatch m = (.ok a, d)) ∧
    (∀ (i : PieceIndex) k, (c.session.pieces.growFor i).bit k = c.session.pieces.bit k) ∧
    (∀ i j, (c.session.markHave i).hasPiece j = true ↔ c.session.hasPiece j = true ∨ j = i) :=
  ⟨fun _ _ h j => h.has_iff j, fun _ _ _ _ _ _ hturns => hturns.hears,
    fun a serve stopwatch _ hm => c.handle_telling a serve stopwatch hm,
    fun i k => c.session.pieces.bit_growFor i k,
    fun i j => c.session.pieces.has_insert_growFor i j⟩

/-- A peer that began with the first piece announces the tenth, replaces both by the second, and
announces the thirteenth, for which its bitmap is too short. -/
theorem advertised_pieces_replaced :
    let c : Connection := ⟨.opened ⟨.short ⟨127, 0, 0, 1⟩, 6881⟩ ⟨.zero 20⟩ ⟨[0x80]⟩ 0,
      .start [] .silent none none, 64⟩
    let ms : List Message := [.have_ 9, .bitfield [0x40], .choke, .have_ 12]
    ∃ d, c.Hears ms d ∧ d.session.hasPiece 1 = true ∧ d.session.hasPiece 12 = true ∧
      d.session.hasPiece 9 ≠ true ∧ ∃ e, d.handle (.start ⟨3, .zero 20, 5⟩ 2) (fun _ => none) 7
        (.bitfield []) = (.ok (.start ⟨3, .zero 20, 5⟩ 2), e) := by
  intro c ms
  have htelling := fun (d : Connection) (m : Message) =>
    (advertised_pieces d).2.2.1 (.start ⟨3, .zero 20, 5⟩ 2) (fun _ => none) 7 m
  obtain ⟨c₁, h₁⟩ := htelling c (.have_ 9) (.inr ⟨9, rfl⟩)
  obtain ⟨c₂, h₂⟩ := htelling c₁ (.bitfield [0x40]) (.inl ⟨[0x40], rfl⟩)
  obtain ⟨c₃, h₃⟩ : ∃ c₃, c₂.handle (.start ⟨3, .zero 20, 5⟩ 2) (fun _ => none) 7 .choke =
    (.ok (.start ⟨3, .zero 20, 5⟩ 2), c₃) := ⟨_, rfl⟩
  obtain ⟨d, h₄⟩ := htelling c₃ (.have_ 12) (.inr ⟨12, rfl⟩)
  have hd : c.Hears ms d := (((Hears.start.obeys h₁).obeys h₂).obeys h₃).obeys h₄
  obtain ⟨htold, -⟩ := advertised_pieces c
  refine ⟨d, hd, (htold ms d hd 1).2 (.inl ⟨0x40, rfl, rfl⟩), (htold ms d hd 12).2 (.inr ?_), ?_,
    htelling d (.bitfield []) (.inl ⟨[], rfl⟩)⟩
  · decide
  · intro hnine
    obtain ⟨byte, hbyte, -⟩ | hlater := (htold ms d hd 9).1 hnine
    · cases hbyte
    · revert hlater
      decide

end Connection

end Torrent
