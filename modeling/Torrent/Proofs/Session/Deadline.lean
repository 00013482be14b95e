import Torrent.Proofs.Session.Opening
import Torrent.Proofs.Stream.Schedule

/-!
# The deadline of the bitmap

The bitmap that opens a session has one deadline, which is set when the greeting of
the other side is there.  Keep-alives before the bitmap do not move it
(`Connection.bitmap_deadline`): however many come and whenever they do, the session
opens if the last byte of the bitmap is there by the deadline, and else opening it
times out.
-/

namespace Torrent

/-- A receiver that takes all bytes for its answer waits while some of them are lacking. -/
theorem Receiver.Steady.run_of_lacking {α : Type} {r : Receiver α} (hr : r.Steady)
    {held front lacking : Bytes} {a : α} (hrun : r.run held (front ++ lacking) = (.done a, []))
    (hsome : lacking ≠ []) :
    ∃ kept room pos left, r.run held front = (.more kept room pos, left) := by
  rw [hr.run_append] at hrun
  cases hfront : r.run held front with
  | mk need left =>
      cases need with
      | more kept room pos => exact ⟨kept, room, pos, left, rfl⟩
      | done a' =>
          rw [hfront] at hrun
          exact absurd (List.append_eq_nil_iff.1 (congrArg Prod.snd hrun)).2 hsome

namespace Stream

variable {s : Stream} {ours theirs : Handshake} {after : Bytes} {d greeted : Nat}

/-- A greeting that answers ours and is there by the deadline is taken when it is, and what comes
behind it keeps its times. -/
theorem exchange_in_time (hwritten : (s.write ours.encode).1 = true)
    (hsame : theirs.infoHash = ours.infoHash) (hin : s.incoming = theirs.encode ++ after)
    (hgreeted : s.readyAt Handshake.size = some greeted) (hd : s.now ≤ d) (hintime : greeted ≤ d) :
    ∃ s₁, s.exchange ours (some d) = (.ok theirs, s₁) ∧ s₁.now = greeted ∧ s₁.incoming = after ∧
      s₁.ending = s.ending ∧ ∀ m, s₁.readyAt m = s.readyAt (Handshake.size + m) := by
  have hsteady := Handshake.steady_receiver ours
  have hlength : Handshake.size + after.length = s.incoming.length := by
    rw [hin, List.length_append, theirs.length_encode]
  have hrun : ours.receiver.run [] s.incoming = (.done (.ok theirs), after) :=
    Handshake.run_eq_ok_iff.2 ⟨hsame, hin⟩
  cases hwrite : s.write ours.encode with
  | mk all sent =>
      rw [hwrite] at hwritten
      cases hwritten
      obtain rfl : (s.write ours.encode).2 = sent := congrArg Prod.snd hwrite
      have hanswers := (answersAt_of_done hrun hlength).trans hgreeted
      have hplain := (receive_deadline (s := (s.write ours.encode).2) hsteady hd).1 greeted
        hanswers hintime
      obtain ⟨hgot, hleft, hready⟩ :=
        receive_got (s := (s.write ours.encode).2) hsteady hrun hlength
      refine ⟨((s.write ours.encode).2.receive ours.receiver none).2, ?_, ?_, hleft, rfl, hready⟩
      · rw [exchange, hwrite]
        simp only [hplain, hgot, Result.ofOutcome]
      · exact Option.some.inj ((hready 0).trans hgreeted)

end Stream

/-! ## The bitmap -/

/-- The frames of so many keep-alives, and of a bitmap behind them. -/
def Frame.bitmapBehind (k : Nat) (bits : Bytes) : Bytes :=
  (List.replicate k Message.keepAlive).flatMap encode ++ encode (.bitfield bits)

namespace Stream

variable {s : Stream} {limit : UInt32} {k d : Nat} {bits rest lacking : Bytes}

/-- A bitmap is there with its last byte, whatever the keep-alives before it do. -/
theorem receive_bitmap (hd : s.now ≤ d) (hfits : 1 + bits.length ≤ limit.toNat)
    (hin : s.incoming = Frame.bitmapBehind k bits ++ rest) :
    ∃ t, s.readyAt (Frame.bitmapBehind k bits).length = some t ∧
      (t ≤ d → (s.receive (Frame.bitmapReceiver limit) (some d)).1 = .got (.ok bits) ∧
        (s.receive (Frame.bitmapReceiver limit) (some d)).2.incoming = rest) ∧
      (d < t → (s.receive (Frame.bitmapReceiver limit) (some d)).1 = .late) := by
  have hsteady := Frame.steady_bitmapReceiver limit
  have hrun : (Frame.bitmapReceiver limit).run [] s.incoming = (.done (.ok bits), rest) :=
    Frame.run_bitmap_eq_ok_iff.2 ⟨hfits, k, hin⟩
  have hlength : (Frame.bitmapBehind k bits).length + rest.length = s.incoming.length := by
    rw [hin, List.length_append]
  obtain ⟨t, ht⟩ := exists_readyAt (hlength ▸ Nat.le_add_right _ rest.length)
  have hanswers := (answersAt_of_done hrun hlength).trans ht
  obtain ⟨hplain, hlate⟩ := receive_deadline hsteady hd
  refine ⟨t, ht, fun hle => ?_, fun hlt => (hlate fun t' ht' => ?_).1⟩
  · obtain ⟨hgot, hleft, -⟩ := receive_got hsteady hrun hlength
    rw [hplain t hanswers hle]
    exact ⟨hgot, hleft⟩
  · obtain rfl : t = t' := Option.some.inj (hanswers.symm.trans ht')
    exact hlt

/-- A bitmap that is not there in full is late if nothing else ever comes. -/
theorem receive_bitmap_lacking (hd : s.now ≤ d) (hfits : 1 + bits.length ≤ limit.toNat)
    (hin : s.incoming ++ lacking = Frame.bitmapBehind k bits) (hsome : lacking ≠ [])
    (hsilent : s.ending = .silent) :
    (s.receive (Frame.bitmapReceiver limit) (some d)).1 = .late := by
  have hsteady := Frame.steady_bitmapReceiver limit
  have hrun : (Frame.bitmapReceiver limit).run [] (s.incoming ++ lacking) =
      (.done (.ok bits), []) :=
    Frame.run_bitmap_eq_ok_iff.2 ⟨hfits, k, by rw [hin, List.append_nil]; rfl⟩
  obtain ⟨kept, room, pos, left, hwaits⟩ := hsteady.run_of_lacking hrun hsome
  have hanswers : s.answersAt (Frame.bitmapReceiver limit) = none := by
    rw [answersAt_of_more hwaits, endsAt, if_pos hsilent]
  refine ((receive_deadline hsteady hd).2 fun t ht => ?_).1
  rw [hanswers] at ht
  cases ht

end Stream

/-! ## The session -/

namespace Connection

/-- Behind the greeting, opening a session is waiting for the bitmap. -/
theorem establish_of_exchange {s s₁ : Stream} {ours theirs : Handshake} {handshakeSpan : Nat}
    (endpoint : Endpoint) (bitfieldSpan : Nat) (limit : UInt32)
    (hexchange : s.exchange ours (some (s.now + handshakeSpan)) = (.ok theirs, s₁)) :
    let read := s₁.receive (Frame.bitmapReceiver limit) (some (s₁.now + bitfieldSpan))
    let result := (establish s endpoint ours handshakeSpan bitfieldSpan limit).1
    (∀ bits, read.1 = .got (.ok bits) →
      result = .ok ⟨.opened endpoint theirs.peerId ⟨bits⟩ 0, read.2, limit⟩) ∧
    (read.1 = .late → result = .error (.timeout .bitfield)) := by
  intro read result
  refine ⟨fun bits hgot => ?_, fun hlate => ?_⟩
  · simp only [result, establish, hexchange, read, hgot, Result.ofOutcome]
  · simp only [result, establish, hexchange, read, hlate, Result.ofOutcome]

/-- The bitmap has one deadline, counted from when the greeting was there.  Let a greeting that
answers ours be there in time, and behind it keep-alives and a bitmap within the limit, or only the
front of these.  If the last byte of the bitmap is there before the deadline, or at it, the session
opens with that bitmap.  If it comes later, or never while the stream stays open, opening the
session times out.  How many keep-alives there are, and when they come, does not matter. -/
theorem bitmap_deadline (s : Stream) (endpoint : Endpoint) (ours theirs : Handshake)
    (handshakeSpan bitfieldSpan greeted k : Nat) (limit : UInt32) (bits after : Bytes)
    (hwritten : (s.write ours.encode).1 = true) (hsame : theirs.infoHash = ours.infoHash)
    (hin : s.incoming = theirs.encode ++ after)
    (hgreeted : s.readyAt Handshake.size = some greeted)
    (hintime : greeted ≤ s.now + handshakeSpan) (hfits : 1 + bits.length ≤ limit.toNat) :
    let frames := Frame.bitmapBehind k bits
    let deadline := greeted + bitfieldSpan
    let result := (establish s endpoint ours handshakeSpan bitfieldSpan limit).1
    (∀ rest, after = frames ++ rest →
      ∃ t, s.readyAt (Handshake.size + frames.length) = some t ∧
        (t ≤ deadline → ∃ c, result = .ok c ∧ c.session.remoteId = theirs.peerId ∧
          c.session.pieces.bytes = bits ∧ c.stream.incoming = rest) ∧
        (deadline < t → result = .error (.timeout .bitfield))) ∧
    ∀ lacking, after ++ lacking = frames → lacking ≠ [] → s.ending = .silent →
      result = .error (.timeout .bitfield) := by
  intro frames deadline result
  obtain ⟨s₁, hexchange, rfl, rfl, hending, hready⟩ :=
    Stream.exchange_in_time hwritten hsame hin hgreeted (Nat.le_add_right _ _) hintime
  obtain ⟨hopened, htimeout⟩ := establish_of_exchange endpoint bitfieldSpan limit hexchange
  have hd : s₁.now ≤ s₁.now + bitfieldSpan := Nat.le_add_right _ _
  refine ⟨fun rest hafter => ?_, fun lacking hafter hsome hsilent => ?_⟩
  · obtain ⟨t, ht, hgot, hlate⟩ := Stream.receive_bitmap hd hfits hafter
    refine ⟨t, (hready _).symm.trans ht, fun hle => ?_, fun hlt => htimeout (hlate hlt)⟩
    obtain ⟨hbits, hleft⟩ := hgot hle
    exact ⟨_, hopened bits hbits, rfl, rfl, hleft⟩
  · exact htimeout (Stream.receive_bitmap_lacking hd hfits hafter hsome (hending.trans hsilent))

/-- The greeting is there at two, and the bitmap may take until twelve.  Two keep-alives come before
it, at six and at ten.  The last bytes of the bitmap come at twelve, at thirteen, or never. -/
theorem bitmap_deadline_keep_alives :
    let ours := Handshake.ours ⟨.zero 20⟩ ⟨.zero 20⟩
    let theirs : Handshake := ⟨.zero 8, ⟨.zero 20⟩, ⟨.ofFront 20 [7]⟩⟩
    let endpoint : Endpoint := ⟨.short ⟨127, 0, 0, 1⟩, 6881⟩
    let s (last : List Arrival) := Stream.start ([.pause 2, .bytes theirs.encode, .pause 4,
      .bytes [0, 0, 0, 0, 0], .pause 4, .bytes [0, 0, 0, 0, 0]] ++ last) .silent none none
    (∃ c, (establish (s [.pause 2, .bytes [0, 2, 5, 0x80, 9]]) endpoint ours 5 10 2).1 = .ok c ∧
      c.session.remoteId = theirs.peerId ∧ c.session.pieces.bytes = [0x80] ∧
      c.stream.incoming = [9]) ∧
    (establish (s [.pause 3, .bytes [0, 2, 5, 0x80, 9]]) endpoint ours 5 10 2).1 =
      .error (.timeout .bitfield) ∧
    (establish (s []) endpoint ours 5 10 2).1 = .error (.timeout .bitfield) := by
  intro ours theirs endpoint s
  refine ⟨?_, ?_, ?_⟩
  · obtain ⟨t, ht, hopens, -⟩ := (bitmap_deadline (s [.pause 2, .bytes [0, 2, 5, 0x80, 9]]) endpoint
      ours theirs 5 10 2 2 2 [0x80] (Frame.bitmapBehind 2 [0x80] ++ [9]) (by decide +kernel) rfl
      (by decide +kernel) (by decide +kernel) (by decide +kernel) (by decide)).1 [9] rfl
    obtain rfl : 12 = t := Option.some.inj ((by decide +kernel : _ = some 12).symm.trans ht)
    exact hopens (by decide)
  · obtain ⟨t, ht, -, hlate⟩ := (bitmap_deadline (s [.pause 3, .bytes [0, 2, 5, 0x80, 9]]) endpoint
      ours theirs 5 10 2 2 2 [0x80] (Frame.bitmapBehind 2 [0x80] ++ [9]) (by decide +kernel) rfl
      (by decide +kernel) (by decide +kernel) (by decide +kernel) (by decide)).1 [9] rfl
    obtain rfl : 13 = t := Option.some.inj ((by decide +kernel : _ = some 13).symm.trans ht)
    exact hlate (by decide)
  · exact (bitmap_deadline (s []) endpoint ours theirs 5 10 2 2 2 [0x80]
      ((Frame.bitmapBehind 2 [0x80]).take 10) (by decide +kernel) rfl (by decide +kernel)
      (by decide +kernel) (by decide +kernel) (by decide)).2 [0, 2, 5, 0x80] (by decide +kernel)
      nofun rfl

end Connection

end Torrent
