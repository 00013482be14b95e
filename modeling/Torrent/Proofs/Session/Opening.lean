import Torrent.Proofs.Stream.Framing
import Torrent.Proofs.Wire.Greeting

/-!
# Which bytes open a session

A session is opened by a greeting that answers ours, any number of keep-alives and
one bitmap within the limit, and by nothing else.  `Opens` says so of the bytes of
a stream, and `Connection.session_opened` that a session over a stream without
pauses opens exactly then, whatever the cuts of the stream are.

The two receivers are taken one after the other.  Each of them has its answer
exactly where the bytes begin with the written form of that answer
(`Handshake.run_eq_ok_iff`, `Frame.run_bitmap_eq_ok_iff`).
-/

namespace Torrent

/-! ## The greeting -/

namespace Handshake

variable {ours theirs : Handshake} {bytes left : Bytes}

theorem next_of_short (h : bytes.length < size) :
    ours.receiver.next bytes = .more bytes (size - bytes.length) (Nat.sub_pos_of_lt h) :=
  dif_pos h

theorem next_of_full (h : size ≤ bytes.length) :
    ours.receiver.next bytes =
      match ours.accept bytes with
      | .ok theirs => .done (.ok theirs)
      | .error failure => .done (.error (.handshake failure)) :=
  dif_neg (Nat.not_lt.2 h)

theorem steady_receiver (ours : Handshake) : ours.receiver.Steady := by
  intro held kept room pos hnext part hpart
  by_cases hshort : held.length < size
  · rw [next_of_short hshort] at hnext
    cases hnext
    have hlength : (held ++ part).length < size := by
      rw [List.length_append]
      omega
    refine (next_of_short hlength).trans ?_
    simp only [List.length_append, Nat.sub_add_eq]
  · rw [next_of_full (Nat.le_of_not_lt hshort)] at hnext
    split at hnext <;> cases hnext

theorem run_of_short (h : bytes.length < size) :
    ours.receiver.run [] bytes = (.more bytes (size - bytes.length) (Nat.sub_pos_of_lt h), []) := by
  have hnil : ours.receiver.next [] = .more [] size (by decide) := next_of_short (by decide)
  rw [(steady_receiver ours).run_take hnil, List.take_of_length_le (Nat.le_of_lt h),
    List.drop_eq_nil_of_le (Nat.le_of_lt h), List.nil_append,
    Receiver.run_of_more (next_of_short h), if_pos rfl]

theorem run_of_full (h : size ≤ bytes.length) :
    ours.receiver.run [] bytes =
      match ours.accept (bytes.take size) with
      | .ok theirs => (.done (.ok theirs), bytes.drop size)
      | .error failure => (.done (.error (.handshake failure)), bytes.drop size) := by
  have hnil : ours.receiver.next [] = .more [] size (by decide) := next_of_short (by decide)
  have hfull : size ≤ (bytes.take size).length :=
    Nat.le_of_eq (List.length_take_of_le h).symm
  have hnext : ours.receiver.next (bytes.take size) = _ := next_of_full hfull
  rw [(steady_receiver ours).run_take hnil, List.nil_append]
  split at hnext
  next => rw [Receiver.run_of_done hnext]
  next => rw [Receiver.run_of_done hnext]

/-- A greeting is taken exactly where one that answers ours is in front. -/
theorem run_eq_ok_iff :
    ours.receiver.run [] bytes = (.done (.ok theirs), left) ↔
      theirs.infoHash = ours.infoHash ∧ bytes = theirs.encode ++ left := by
  constructor
  · intro h
    by_cases hshort : bytes.length < size
    · rw [run_of_short hshort] at h
      cases h
    rw [run_of_full (Nat.le_of_not_lt hshort)] at h
    split at h
    next hok =>
      cases h
      obtain ⟨hsame, hfront⟩ := accept_eq_ok_iff.1 hok
      exact ⟨hsame, by rw [← hfront, List.take_append_drop]⟩
    next => cases h
  · rintro ⟨hsame, rfl⟩
    have hlength := length_encode theirs
    rw [run_of_full (by rw [List.length_append]; omega), ← hlength, List.take_left, List.drop_left,
      accept_eq_ok_iff.2 ⟨hsame, rfl⟩]

end Handshake

/-! ## The bitmap -/

namespace Frame

variable {limit : UInt32} {bytes bits left : Bytes}

theorem next_bitmap_of_more {held kept : Bytes} {room : Nat} {pos : 0 < room}
    (h : (receiver limit).next held = .more kept room pos) :
    (bitmapReceiver limit).next held = .more kept room pos := by
  have hwait : next limit held = .more kept room pos := h
  simp only [bitmapReceiver, hwait]

theorem steady_bitmapReceiver (limit : UInt32) : (bitmapReceiver limit).Steady := by
  intro held kept room pos hnext part hpart
  have hkept : (receiver limit).next kept = .more kept room pos := by
    simp only [bitmapReceiver] at hnext
    split at hnext
    next hmore =>
      cases hnext
      exact (steady_receiver limit).next_kept hmore
    next => cases hnext
    next =>
      split at hnext
      next =>
        cases hnext
        exact next_nil limit
      next => cases hnext
      next => cases hnext
  exact next_bitmap_of_more (steady_receiver limit kept kept room pos hkept part hpart)

/-- The receiver of the bitmap takes messages one after the other until one is not a keep-alive. -/
theorem run_bitmap (limit : UInt32) (held bytes : Bytes) :
    (bitmapReceiver limit).run held bytes =
      match (receiver limit).run held bytes with
      | (.more kept room pos, left) => (.more kept room pos, left)
      | (.done (.error e), left) => (.done (.error e), left)
      | (.done (.ok m), left) =>
        match m.kind with
        | .keepAlive => (bitmapReceiver limit).run [] left
        | .bitfield => (.done (.ok m.payload), left)
        | kind => (.done (.error (.violation (.noBitfield kind))), left) := by
  fun_induction Receiver.run (receiver limit) held bytes with
  | case1 held bytes answer hnext =>
      have hanswer : next limit held = .done answer := hnext
      cases answer with
      | error e =>
          have hdone : (bitmapReceiver limit).next held = .done (.error e) := by
            simp only [bitmapReceiver, hanswer]
          exact Receiver.run_of_done hdone bytes
      | ok m =>
          simp only
          split
          next hkind =>
            have hagain : (bitmapReceiver limit).next held = .more [] 4 (by decide) := by
              simp only [bitmapReceiver, hanswer, hkind]
            exact ((steady_bitmapReceiver limit).run_kept hagain bytes).symm
          next hkind =>
            have hdone : (bitmapReceiver limit).next held = .done (.ok m.payload) := by
              simp only [bitmapReceiver, hanswer, hkind]
            exact Receiver.run_of_done hdone bytes
          next =>
            have hdone : (bitmapReceiver limit).next held =
                .done (.error (.violation (.noBitfield m.kind))) := by
              simp only [bitmapReceiver, hanswer]
            exact Receiver.run_of_done hdone bytes
  | case2 held kept room pos hnext =>
      rw [Receiver.run_of_more (next_bitmap_of_more hnext), if_pos rfl]
  | case3 held bytes kept room pos hnext hsome ih =>
      rw [Receiver.run_of_more (next_bitmap_of_more hnext), if_neg hsome, ih]

theorem run_bitmap_keepAlive (limit : UInt32) (rest : Bytes) :
    (bitmapReceiver limit).run [] (encode .keepAlive ++ rest) =
      (bitmapReceiver limit).run [] rest := by
  rw [run_bitmap, run_eq_ok_iff.2 ⟨.inl rfl, rfl⟩]
  rfl

theorem run_bitmap_bitfield (hlimit : 1 + bits.length ≤ limit.toNat) (rest : Bytes) :
    (bitmapReceiver limit).run [] (encode (.bitfield bits) ++ rest) = (.done (.ok bits), rest) := by
  have hreadable : (Message.bitfield bits).Readable limit := .inr ⟨nofun, nofun, hlimit⟩
  rw [run_bitmap, run_eq_ok_iff.2 ⟨hreadable, rfl⟩]
  rfl

/-- A bitmap is taken exactly where one within the limit is in front, behind any number of
keep-alives. -/
theorem run_bitmap_eq_ok_iff :
    (bitmapReceiver limit).run [] bytes = (.done (.ok bits), left) ↔
      1 + bits.length ≤ limit.toNat ∧
        ∃ k, bytes = (List.replicate k Message.keepAlive).flatMap encode ++
          encode (.bitfield bits) ++ left := by
  constructor
  · intro h
    induction hn : bytes.length using Nat.strongRecOn generalizing bytes with
    | ind n ih =>
        rw [run_bitmap] at h
        split at h
        next => cases h
        next => cases h
        next m rest hrun =>
          obtain ⟨hreadable, rfl⟩ := run_eq_ok_iff.1 hrun
          split at h
          next hkind =>
            have hkeep : m = .keepAlive := hreadable.resolve_right fun h => h.1 hkind
            have hshorter : rest.length < n := by
              have := four_le_length_encode m
              rw [← hn, List.length_append]
              omega
            obtain ⟨hlimit, k, hrest⟩ := ih rest.length hshorter h rfl
            refine ⟨hlimit, k + 1, ?_⟩
            rw [hkeep, hrest, List.replicate_succ, List.flatMap_cons]
            simp only [List.append_assoc]
          next hkind =>
            cases h
            have hm : m = .bitfield m.payload := by
              rw [Message.bitfield, ← hkind]
            rcases hreadable with rfl | ⟨-, -, hfits⟩
            · cases hkind
            · exact ⟨hfits, 0, by rw [hm]; rfl⟩
          next => cases h
  · rintro ⟨hlimit, k, rfl⟩
    rw [List.append_assoc]
    induction k with
    | zero => exact run_bitmap_bitfield hlimit left
    | succ k ih =>
        rw [List.replicate_succ, List.flatMap_cons, List.append_assoc, run_bitmap_keepAlive]
        exact ih

end Frame

/-! ## The session -/

/-- These bytes open a session: a greeting that answers ours, any number of keep-alives and a bitmap
within the limit.  The others are left. -/
structure Opens (ours : Handshake) (limit : UInt32) (bytes : Bytes) (theirs : Handshake)
    (bits rest : Bytes) : Prop where
  same : theirs.infoHash = ours.infoHash
  fits : 1 + bits.length ≤ limit.toNat
  spelled : ∃ k, bytes = theirs.encode ++ (List.replicate k Message.keepAlive).flatMap Frame.encode ++
    Frame.encode (.bitfield bits) ++ rest

/-- A result with something done to what it gives. -/
def Result.map {α β : Type} (f : α → β) : Result α → Result β
  | .ok a => .ok (f a)
  | .error e => .error e
  | .never => .never

theorem Result.map_eq_ok_iff {α β : Type} {f : α → β} {r : Result α} {b : β} :
    r.map f = .ok b ↔ ∃ a, r = .ok a ∧ f a = b := by
  cases r <;> simp [map]

/-- What opening a session comes to when these are all bytes that come: the session and the bytes
that are left. -/
def opening (endpoint : Endpoint) (ours : Handshake) (limit : UInt32) (bytes : Bytes)
    (ending : Ending) : Result (Session × Bytes) :=
  let greeting := ours.receiver.settle ending (some 0) [] bytes
  match Result.ofOutcome .handshake greeting.1 with
  | .error e => .error e
  | .never => .never
  | .ok theirs =>
    let bitmap := (Frame.bitmapReceiver limit).settle ending (some 0) [] greeting.2
    (Result.ofOutcome .bitfield bitmap.1).map fun bits =>
      (.opened endpoint theirs.peerId ⟨bits⟩ 0, bitmap.2)

/-- Reading gives something exactly where the receiver has it as its answer. -/
theorem Receiver.settle_eq_ok_iff {α : Type} {r : Receiver (Except PeerError α)} {stage : Stage}
    {ending : Ending} {deadline : Option Nat} {bytes left : Bytes} {a : α} :
    Result.ofOutcome stage (r.settle ending deadline [] bytes).1 = .ok a ∧
        (r.settle ending deadline [] bytes).2 = left ↔
      r.run [] bytes = (.done (.ok a), left) := by
  rw [Receiver.settle]
  cases r.run [] bytes with
  | mk need rest =>
      cases need with
      | more kept room pos => cases ending <;> cases deadline <;> simp [stranded, Result.ofOutcome]
      | done answer => cases answer <;> simp [Result.ofOutcome]

variable {endpoint : Endpoint} {ours theirs : Handshake} {limit : UInt32} {bytes bits rest : Bytes}
  {ending : Ending}

/-- A session opens exactly on bytes that open one. -/
theorem opening_eq_ok_iff {session : Session} :
    opening endpoint ours limit bytes ending = .ok (session, rest) ↔
      ∃ theirs bits, Opens ours limit bytes theirs bits rest ∧
        session = .opened endpoint theirs.peerId ⟨bits⟩ 0 := by
  constructor
  · intro h
    rw [opening] at h
    split at h
    next => cases h
    next => cases h
    next theirs hgreeting =>
      obtain ⟨bits, hbitmap, heq⟩ := Result.map_eq_ok_iff.1 h
      cases heq
      obtain ⟨hsame, hfront⟩ :=
        Handshake.run_eq_ok_iff.1 (Receiver.settle_eq_ok_iff.1 ⟨hgreeting, rfl⟩)
      obtain ⟨hfits, k, hback⟩ :=
        Frame.run_bitmap_eq_ok_iff.1 (Receiver.settle_eq_ok_iff.1 ⟨hbitmap, rfl⟩)
      refine ⟨theirs, bits, ⟨hsame, hfits, k, ?_⟩, rfl⟩
      rw [hback] at hfront
      simpa only [List.append_assoc] using hfront
  · rintro ⟨theirs, bits, ⟨hsame, hfits, k, hspelled⟩, rfl⟩
    rw [List.append_assoc, List.append_assoc] at hspelled
    have hgreeting := Handshake.run_eq_ok_iff.2 ⟨hsame, hspelled⟩
    have hbitmap := Frame.run_bitmap_eq_ok_iff.2 ⟨hfits, k, (List.append_assoc _ _ rest).symm⟩
    simp only [opening, Receiver.settle_of_done hgreeting, Receiver.settle_of_done hbitmap,
      Result.ofOutcome, Result.map]

/-- Only whether there is a deadline matters to the bytes, not when it is. -/
theorem Receiver.settle_some {α : Type} (r : Receiver α) (ending : Ending) (d : Nat)
    (held bytes : Bytes) :
    r.settle ending (some d) held bytes = r.settle ending (some 0) held bytes := rfl

variable {s s' : Stream}

/-- Once our greeting went out, exchanging greetings is reading one. -/
theorem Stream.exchange_spec {deadline : Option Nat} {result : Result Handshake}
    (hprompt : deadline = none ∨ s.Prompt) (hwritten : (s.write ours.encode).1 = true)
    (h : s.exchange ours deadline = (result, s')) :
    let greeting := ours.receiver.settle s.ending deadline [] s.incoming
    result = Result.ofOutcome .handshake greeting.1 ∧ s'.incoming = greeting.2 ∧
      s'.ending = s.ending ∧ (s.Prompt → s'.Prompt) := by
  intro greeting
  cases hwrite : s.write ours.encode with
  | mk all sent =>
      rw [hwrite] at hwritten
      cases hwritten
      rw [exchange, hwrite] at h
      obtain ⟨-, rfl⟩ := Prod.mk.inj hwrite
      obtain ⟨rfl, rfl⟩ := Prod.mk.inj h
      have hsettle := receive_settle (Handshake.steady_receiver ours) hprompt
      obtain ⟨houtcome, hleft⟩ := Prod.mk.inj hsettle
      exact ⟨congrArg (Result.ofOutcome .handshake) houtcome, hleft, rfl,
        fun hp => Prompt.receive hp ours.receiver deadline⟩

namespace Connection

variable {handshakeSpan bitfieldSpan : Nat}

/-- Opening a session over a stream without pauses is opening it on all its bytes. -/
theorem establish_eq (hprompt : s.Prompt) (hwritten : (s.write ours.encode).1 = true) :
    (establish s endpoint ours handshakeSpan bitfieldSpan limit).1.map
        (fun c => (c.session, c.stream.incoming)) =
      opening endpoint ours limit s.incoming s.ending := by
  cases hexchange : s.exchange ours (some (s.now + handshakeSpan)) with
  | mk result s₁ =>
      obtain ⟨hresult, hleft, hending, hstill⟩ :=
        Stream.exchange_spec (.inr hprompt) hwritten hexchange
      rw [Receiver.settle_some] at hresult hleft
      rw [establish, hexchange, opening]
      simp only [← hresult, ← hleft]
      cases result with
      | error e => rfl
      | never => rfl
      | ok theirs =>
          have hsettle : _ = (Frame.bitmapReceiver limit).settle s₁.ending
              (some (s₁.now + bitfieldSpan)) [] s₁.incoming :=
            Stream.receive_settle (Frame.steady_bitmapReceiver limit) (.inr (hstill hprompt))
          rw [Receiver.settle_some, hending] at hsettle
          rw [← hsettle]
          cases hbitmap : Result.ofOutcome .bitfield
              (s₁.receive (Frame.bitmapReceiver limit) (some (s₁.now + bitfieldSpan))).1 with
          | ok bits => simp only [hbitmap, Result.map]
          | error e => simp only [hbitmap, Result.map]
          | never => simp only [hbitmap, Result.map]

/-- A session over a stream without pauses opens exactly on a greeting that answers ours, any number
of keep-alives and a bitmap within the limit, provided that our greeting goes out.  The session
then knows the name and the bitmap of the peer, nothing may be asked for yet and nothing was
announced, and what follows the bitmap stays on the stream.  Where the stream is cut does not matter,
whatever comes of it. -/
theorem session_opened (s : Stream) (endpoint : Endpoint) (ours : Handshake)
    (handshakeSpan bitfieldSpan : Nat) (limit : UInt32) (hprompt : s.Prompt)
    (hwritten : (s.write ours.encode).1 = true) :
    let result := (establish s endpoint ours handshakeSpan bitfieldSpan limit).1
    ((∃ c, result = .ok c) ↔ ∃ theirs bits rest, Opens ours limit s.incoming theirs bits rest) ∧
    (∀ theirs bits rest, Opens ours limit s.incoming theirs bits rest →
      ∃ c, result = .ok c ∧ c.session.remoteId = theirs.peerId ∧ c.session.pieces.bytes = bits ∧
        c.session.choked = true ∧ c.session.interestSent = false ∧ c.stream.incoming = rest) ∧
    ∀ s' : Stream, s'.Prompt → (s'.write ours.encode).1 = true → s'.incoming = s.incoming →
      s'.ending = s.ending →
      (establish s' endpoint ours handshakeSpan bitfieldSpan limit).1.map
          (fun c => (c.session, c.stream.incoming)) =
        result.map fun c => (c.session, c.stream.incoming) := by
  intro result
  have hresult : result.map (fun c => (c.session, c.stream.incoming)) =
      opening endpoint ours limit s.incoming s.ending := establish_eq hprompt hwritten
  have hopens (theirs : Handshake) (bits rest : Bytes)
      (h : Opens ours limit s.incoming theirs bits rest) :
      ∃ c, result = .ok c ∧ c.session = .opened endpoint theirs.peerId ⟨bits⟩ 0 ∧
        c.stream.incoming = rest := by
    rw [opening_eq_ok_iff.2 ⟨theirs, bits, h, rfl⟩] at hresult
    obtain ⟨c, hok, hview⟩ := Result.map_eq_ok_iff.1 hresult
    exact ⟨c, hok, Prod.mk.inj hview⟩
  refine ⟨⟨?_, ?_⟩, ?_, ?_⟩
  · rintro ⟨c, hok⟩
    rw [hok] at hresult
    obtain ⟨theirs, bits, h, -⟩ := opening_eq_ok_iff.1 hresult.symm
    exact ⟨theirs, bits, _, h⟩
  · rintro ⟨theirs, bits, rest, h⟩
    obtain ⟨c, hok, -⟩ := hopens theirs bits rest h
    exact ⟨c, hok⟩
  · intro theirs bits rest h
    obtain ⟨c, hok, hsession, hrest⟩ := hopens theirs bits rest h
    refine ⟨c, hok, ?_⟩
    rw [hsession]
    exact ⟨rfl, rfl, rfl, rfl, hrest⟩
  · intro s' hprompt' hwritten' hin hending
    rw [establish_eq hprompt' hwritten', hin, hending, hresult]

/-- The greeting is cut in the name of the protocol, and its last part holds two keep-alives, the
bitmap and the beginning of the next message. -/
theorem session_opened_two_parts :
    let ours := Handshake.ours ⟨.zero 20⟩ ⟨.zero 20⟩
    let theirs : Handshake := ⟨.zero 8, ⟨.zero 20⟩, ⟨.ofFront 20 [7]⟩⟩
    let endpoint : Endpoint := ⟨.short ⟨127, 0, 0, 1⟩, 6881⟩
    let s := Stream.start [.bytes (theirs.encode.take 9), .bytes (theirs.encode.drop 9 ++
      [0, 0, 0, 0, 0, 0, 0, 0, 0, 0, 0, 2, 5, 0x80, 0, 0])] .silent none none
    s.Prompt ∧ (s.write ours.encode).1 = true ∧
      Opens ours 2 s.incoming theirs [0x80] [0, 0] ∧
      ∃ c, (establish s endpoint ours 5 6 2).1 = .ok c ∧ c.session.remoteId = theirs.peerId ∧
        c.session.pieces.bytes = [0x80] ∧ c.session.choked = true ∧
        c.session.interestSent = false ∧ c.stream.incoming = [0, 0] := by
  intro ours theirs endpoint s
  have hprompt : s.Prompt := by
    intro span h
    simp [s, Stream.start] at h
  have hwritten : (s.write ours.encode).1 = true := by decide +kernel
  have hopens : Opens ours 2 s.incoming theirs [0x80] [0, 0] := ⟨rfl, by decide, 2, by decide +kernel⟩
  exact ⟨hprompt, hwritten, hopens,
    (session_opened s endpoint ours 5 6 2 hprompt hwritten).2.1 theirs [0x80] [0, 0] hopens⟩

end Connection

end Torrent
