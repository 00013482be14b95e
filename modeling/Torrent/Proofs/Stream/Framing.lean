import Torrent.Connection
import Torrent.Proofs.Stream.Chunks
import Torrent.Proofs.Wire.Frame

/-!
# Messages from a stream

Reading a message from a stream takes exactly its frame, however the frame is cut
and whatever comes with it (`Connection.read_eq`).  So readers stay in step: the
frames of a list of messages, joined, are read back as that list
(`Connection.reading_in_step`).
-/

namespace Torrent

namespace Frame

/-! ## The receiver of a message -/

variable {limit : UInt32} {held bytes rest left : Bytes}

theorem next_of_short (h : held.length < 4) :
    next limit held = .more held (4 - held.length) (Nat.sub_pos_of_lt h) := by
  rw [next, dif_pos h]

theorem next_nil (limit : UInt32) : (receiver limit).next [] = .more [] 4 (by decide) := rfl

theorem next_of_long (hword : 4 ≤ held.length) (h : limit.toNat < declared held) :
    next limit held = .done (.error (.violation (.longFrame (BigEndian.ofBytes held) limit))) := by
  rw [next, dif_neg (by omega)]
  simp only
  rw [if_pos (UInt32.lt_iff_toNat_lt.2 h)]

theorem next_of_cut (hword : 4 ≤ held.length) (hlimit : declared held ≤ limit.toNat)
    (h : held.length < 4 + declared held) :
    next limit held = .more held (4 + declared held - held.length) (Nat.sub_pos_of_lt h) := by
  rw [next, dif_neg (by omega)]
  simp only
  rw [if_neg (by rw [UInt32.lt_iff_toNat_lt]; exact Nat.not_lt.2 hlimit)]
  exact dif_pos h

theorem next_of_whole (hword : 4 ≤ held.length) (hlimit : declared held ≤ limit.toNat)
    (h : 4 + declared held ≤ held.length) :
    next limit held = .done (.ok (ofBody ((held.drop 4).take (declared held)))) := by
  rw [next, dif_neg (by omega)]
  simp only
  rw [if_neg (by rw [UInt32.lt_iff_toNat_lt]; exact Nat.not_lt.2 hlimit)]
  refine (dif_neg (Nat.not_lt.2 h)).trans ?_
  rw [decode_eq_ok_iff.2 ⟨hword, h, rfl⟩]

/-- Only the first four bytes declare a length. -/
theorem declared_append {front : Bytes} (back : Bytes) (h : 4 ≤ front.length) :
    declared (front ++ back) = declared front := by
  simp only [declared, BigEndian.ofBytes, List.take_append_of_le_length h]

/-- A receiver of a message that waits holds what it was given. -/
theorem kept_of_next {kept : Bytes} {room : Nat} {pos : 0 < room}
    (h : next limit held = .more kept room pos) :
    kept = held ∧ room = (if held.length < 4 then 4 else 4 + declared held) - held.length ∧
      (4 ≤ held.length → declared held ≤ limit.toNat) := by
  by_cases hshort : held.length < 4
  · rw [next_of_short hshort] at h
    cases h
    exact ⟨rfl, by rw [if_pos hshort], fun hword => absurd hshort (by omega)⟩
  have hword : 4 ≤ held.length := Nat.le_of_not_lt hshort
  by_cases hlong : limit.toNat < declared held
  · rw [next_of_long hword hlong] at h
    cases h
  have hlimit : declared held ≤ limit.toNat := Nat.le_of_not_lt hlong
  by_cases hcut : held.length < 4 + declared held
  · rw [next_of_cut hword hlimit hcut] at h
    cases h
    exact ⟨rfl, by rw [if_neg hshort], fun _ => hlimit⟩
  · rw [next_of_whole hword hlimit (Nat.le_of_not_lt hcut)] at h
    cases h

theorem steady_receiver (limit : UInt32) : (receiver limit).Steady := by
  intro held kept room pos hnext part hpart
  obtain ⟨rfl, hroom, hlimit⟩ := kept_of_next hnext
  by_cases hshort : kept.length < 4
  · rw [if_pos hshort] at hroom
    have hlength : (kept ++ part).length < 4 := by
      rw [List.length_append]
      omega
    refine (next_of_short hlength).trans ?_
    simp only [hroom, List.length_append, Nat.sub_add_eq]
  · rw [if_neg hshort] at hroom
    have hword : 4 ≤ kept.length := Nat.le_of_not_lt hshort
    have hsame := declared_append part hword
    have hlength : (kept ++ part).length < 4 + declared (kept ++ part) := by
      rw [List.length_append, hsame]
      omega
    refine (next_of_cut ?_ ?_ hlength).trans ?_
    · rw [List.length_append]
      omega
    · rw [hsame]
      exact hlimit hword
    · simp only [hroom, hsame, List.length_append, Nat.sub_add_eq]

/-! ## All bytes at once -/

/-- Nothing held, a receiver takes up to four bytes. -/
theorem run_nil (limit : UInt32) (bytes : Bytes) :
    (receiver limit).run [] bytes = (receiver limit).run (bytes.take 4) (bytes.drop 4) :=
  (steady_receiver limit).run_take (next_nil limit) bytes

theorem run_of_short (h : bytes.length < 4) :
    (receiver limit).run [] bytes = (.more bytes (4 - bytes.length) (Nat.sub_pos_of_lt h), []) := by
  rw [run_nil, List.take_of_length_le (by omega), List.drop_eq_nil_of_le (by omega),
    Receiver.run_of_more (next_of_short h), if_pos rfl]

theorem declared_take {n : Nat} (hn : 4 ≤ n) (h : n ≤ bytes.length) :
    declared (bytes.take n) = declared bytes := by
  have hfront : 4 ≤ (bytes.take n).length := by
    rw [List.length_take_of_le h]
    exact hn
  rw [← declared_append (bytes.drop n) hfront, List.take_append_drop]

theorem run_of_long (hword : 4 ≤ bytes.length) (h : limit.toNat < declared bytes) :
    (receiver limit).run [] bytes =
      (.done (.error (.violation (.longFrame (BigEndian.ofBytes bytes) limit))), bytes.drop 4) := by
  have hfour : 4 ≤ (bytes.take 4).length := Nat.le_of_eq (List.length_take_of_le hword).symm
  have hdeclared := declared_take (Nat.le_refl 4) hword
  have hnext : (receiver limit).next (bytes.take 4) = _ := next_of_long hfour (by rwa [hdeclared])
  rw [run_nil, Receiver.run_of_done hnext, UInt32.toNat_inj.1 hdeclared]

/-- Behind the length word a receiver takes the content and no more. -/
theorem run_body (hword : 4 ≤ bytes.length) (hlimit : declared bytes ≤ limit.toNat) :
    (receiver limit).run [] bytes =
      (receiver limit).run (bytes.take (4 + declared bytes)) (bytes.drop (4 + declared bytes)) := by
  have hfour : (bytes.take 4).length = 4 := List.length_take_of_le hword
  rw [run_nil]
  by_cases hzero : declared bytes = 0
  · rw [hzero]
  · have hdeclared := declared_take (Nat.le_refl 4) hword
    have hnext : (receiver limit).next (bytes.take 4) = .more (bytes.take 4) (declared bytes)
        (Nat.pos_of_ne_zero hzero) := by
      refine (next_of_cut (by omega) (by omega) (by omega)).trans ?_
      simp only [hdeclared, hfour, Nat.add_sub_cancel_left]
    rw [(steady_receiver limit).run_take hnext, List.take_add, ← List.drop_drop]

theorem run_of_cut (hword : 4 ≤ bytes.length) (hlimit : declared bytes ≤ limit.toNat)
    (h : bytes.length < 4 + declared bytes) :
    (receiver limit).run [] bytes =
      (.more bytes (4 + declared bytes - bytes.length) (Nat.sub_pos_of_lt h), []) := by
  rw [run_body hword hlimit, List.take_of_length_le (by omega), List.drop_eq_nil_of_le (by omega),
    Receiver.run_of_more (next_of_cut hword hlimit h), if_pos rfl]

theorem run_of_whole (hword : 4 ≤ bytes.length) (hlimit : declared bytes ≤ limit.toNat)
    (h : 4 + declared bytes ≤ bytes.length) :
    (receiver limit).run [] bytes =
      (.done (.ok (ofBody ((bytes.drop 4).take (declared bytes)))),
        bytes.drop (4 + declared bytes)) := by
  have hlength : (bytes.take (4 + declared bytes)).length = 4 + declared bytes :=
    List.length_take_of_le h
  have hsame : declared (bytes.take (4 + declared bytes)) = declared bytes :=
    declared_take (Nat.le_add_right 4 _) h
  have hnext : (receiver limit).next (bytes.take (4 + declared bytes)) = _ :=
    next_of_whole (by omega) (by omega) (by omega)
  rw [hsame, List.drop_take, Nat.add_sub_cancel_left, List.take_take, Nat.min_self] at hnext
  rw [run_body hword hlimit, Receiver.run_of_done hnext]

/-- The whole frame is there and within the limit. -/
def Whole (limit : UInt32) (bytes : Bytes) : Prop :=
  4 ≤ bytes.length ∧ declared bytes ≤ limit.toNat ∧ 4 + declared bytes ≤ bytes.length

instance (limit : UInt32) (bytes : Bytes) : Decidable (Whole limit bytes) :=
  inferInstanceAs (Decidable (_ ∧ _ ∧ _))

/-- The length word is there and over the limit. -/
def TooLong (limit : UInt32) (bytes : Bytes) : Prop :=
  4 ≤ bytes.length ∧ limit.toNat < declared bytes

instance (limit : UInt32) (bytes : Bytes) : Decidable (TooLong limit bytes) :=
  inferInstanceAs (Decidable (_ ∧ _))

theorem Whole.not_tooLong (h : Whole limit bytes) : ¬ TooLong limit bytes :=
  fun hlong => absurd hlong.2 (Nat.not_lt.2 h.2.1)

/-- A receiver has its message, blames the peer, or waits with all bytes held. -/
theorem run_cases (limit : UInt32) (bytes : Bytes) :
    (Whole limit bytes ∧ (receiver limit).run [] bytes =
      (.done (.ok (ofBody ((bytes.drop 4).take (declared bytes)))),
        bytes.drop (4 + declared bytes))) ∨
    (TooLong limit bytes ∧ (receiver limit).run [] bytes =
      (.done (.error (.violation (.longFrame (BigEndian.ofBytes bytes) limit))), bytes.drop 4)) ∨
    (¬ Whole limit bytes ∧ ¬ TooLong limit bytes ∧ ∃ room pos,
      (receiver limit).run [] bytes = (.more bytes room pos, [])) := by
  by_cases hshort : bytes.length < 4
  · exact .inr (.inr ⟨fun hwhole => Nat.not_lt.2 hwhole.1 hshort,
      fun hlong => Nat.not_lt.2 hlong.1 hshort, _, _, run_of_short hshort⟩)
  have hword : 4 ≤ bytes.length := Nat.le_of_not_lt hshort
  by_cases hlong : limit.toNat < declared bytes
  · exact .inr (.inl ⟨⟨hword, hlong⟩, run_of_long hword hlong⟩)
  have hlimit : declared bytes ≤ limit.toNat := Nat.le_of_not_lt hlong
  by_cases hcut : bytes.length < 4 + declared bytes
  · exact .inr (.inr ⟨fun hwhole => Nat.not_lt.2 hwhole.2.2 hcut, fun h => hlong h.2, _, _,
      run_of_cut hword hlimit hcut⟩)
  · have hwhole : 4 + declared bytes ≤ bytes.length := Nat.le_of_not_lt hcut
    exact .inl ⟨⟨hword, hlimit, hwhole⟩, run_of_whole hword hlimit hwhole⟩

/-- A receiver has its message exactly where a readable message is in front. -/
theorem run_eq_ok_iff {m : Message} :
    (receiver limit).run [] bytes = (.done (.ok m), left) ↔
      m.Readable limit ∧ bytes = encode m ++ left := by
  constructor
  · intro h
    rcases run_cases limit bytes with ⟨⟨hword, hlimit, hwhole⟩, hrun⟩ | ⟨-, hrun⟩ |
      ⟨-, -, room, pos, hrun⟩
    case inr.inl => cases hrun.symm.trans h
    case inr.inr => cases hrun.symm.trans h
    rw [hrun] at h
    cases h
    refine ⟨readable_ofBody ?_, ?_⟩
    · rw [List.length_take]
      omega
    · rw [encode_of_decode (decode_eq_ok_iff.2 ⟨hword, hwhole, rfl⟩), List.take_append_drop]
  · rintro ⟨hreadable, rfl⟩
    have hdecode := decode_encode_of_readable hreadable left
    obtain ⟨hword, hwhole, hbody⟩ := decode_eq_ok_iff.1 hdecode
    have hfront := encode_of_decode hdecode
    have hlength : (encode m).length = 4 + declared (encode m ++ left) :=
      (congrArg List.length hfront).trans (List.length_take_of_le hwhole)
    have hlimit := length_encode_le hreadable
    rw [run_of_whole hword (by omega) hwhole, ← hbody, ← hlength, List.drop_left]

/-! ## What reading comes to -/

/-- What reading a message comes to when the end comes before the message does. -/
def unfinished : Ending → Result Message
  | .closed => .error .closed
  | .reset => .error (.io .reset)
  | .silent => .never

/-- What reading a message comes to when these are all bytes that come, and what is left of them. -/
def reading (limit : UInt32) (bytes : Bytes) (ending : Ending) : Result Message × Bytes :=
  if Whole limit bytes then
    (.ok (ofBody ((bytes.drop 4).take (declared bytes))), bytes.drop (4 + declared bytes))
  else if TooLong limit bytes then
    (.error (.violation (.longFrame (BigEndian.ofBytes bytes) limit)), bytes.drop 4)
  else (unfinished ending, [])

theorem settle_receiver (limit : UInt32) (bytes : Bytes) (ending : Ending) :
    (Result.ofOutcome .message ((receiver limit).settle ending none [] bytes).1,
        ((receiver limit).settle ending none [] bytes).2) =
      reading limit bytes ending := by
  have hstranded (held : Bytes) :
      Result.ofOutcome .message ((receiver limit).stranded ending none held) =
        unfinished ending := by
    cases ending <;> rfl
  rcases run_cases limit bytes with ⟨hwhole, hrun⟩ | ⟨hlong, hrun⟩ |
    ⟨hwhole, hlong, room, pos, hrun⟩
  · rw [reading, if_pos hwhole, Receiver.settle_of_done hrun]
    rfl
  · have hwhole : ¬ Whole limit bytes := fun hwhole => hwhole.not_tooLong hlong
    rw [reading, if_neg hwhole, if_pos hlong, Receiver.settle_of_done hrun]
    rfl
  · rw [reading, if_neg hwhole, if_neg hlong, Receiver.settle_of_more hrun, hstranded]

/-- Each outcome of reading has its own cause. -/
theorem reading_cases {result : Result Message} {ending : Ending}
    (h : reading limit bytes ending = (result, left)) :
    (∀ m, result = .ok m ↔ Whole limit bytes ∧ decode bytes = .ok m) ∧
    (∀ cause, result = .error (.violation cause) ↔
      TooLong limit bytes ∧ cause = .longFrame (BigEndian.ofBytes bytes) limit) ∧
    (result = .error .closed ↔
      ending = .closed ∧ ¬ Whole limit bytes ∧ ¬ TooLong limit bytes) ∧
    (∀ e, result = .error (.io e) ↔
      ending = .reset ∧ e = .reset ∧ ¬ Whole limit bytes ∧ ¬ TooLong limit bytes) ∧
    (result = .never ↔ ending = .silent ∧ ¬ Whole limit bytes ∧ ¬ TooLong limit bytes) ∧
    (Whole limit bytes → left = bytes.drop (4 + declared bytes)) ∧
    (TooLong limit bytes → left = bytes.drop 4) := by
  by_cases hwhole : Whole limit bytes
  · have hlong := hwhole.not_tooLong
    have hdecode := decode_eq_ok_iff.2 ⟨hwhole.1, hwhole.2.2, rfl⟩
    rw [reading, if_pos hwhole] at h
    cases h
    simp [hwhole, hlong, hdecode]
  by_cases hlong : TooLong limit bytes
  · rw [reading, if_neg hwhole, if_pos hlong] at h
    cases h
    simp only [hwhole, hlong]
    simp [eq_comm (a := Violation.longFrame _ _)]
  · rw [reading, if_neg hwhole, if_neg hlong] at h
    cases h
    cases ending with
    | closed => simp [hwhole, hlong, unfinished]
    | reset => simp [hwhole, hlong, unfinished, eq_comm (a := IoError.reset)]
    | silent => simp [hwhole, hlong, unfinished]

end Frame

namespace Connection

variable {c : Connection}

/-! ## Reading over a connection -/

/-- Messages read one after the other. -/
def readEach (c : Connection) : Nat → List (Result Message) × Connection
  | 0 => ([], c)
  | n + 1 =>
    let (first, c) := c.read none
    let (others, c) := readEach c n
    (first :: others, c)

/-- Reading a message depends on the bytes of the stream and on its end only. -/
theorem read_eq (c : Connection) :
    ((c.read none).1, (c.read none).2.stream.incoming) =
      Frame.reading c.limit c.stream.incoming c.stream.ending := by
  have hsettle := Stream.receive_settle (s := c.stream) (Frame.steady_receiver c.limit) (.inl rfl)
  rw [← Frame.settle_receiver, ← hsettle]
  rfl

/-- A readable message in front is read, and what follows it stays. -/
theorem read_encode {m : Message} {rest : Bytes} (hm : m.Readable c.limit)
    (hin : c.stream.incoming = Frame.encode m ++ rest) :
    (c.read none).1 = .ok m ∧ (c.read none).2.stream.incoming = rest := by
  have hsettle := Stream.receive_settle (s := c.stream) (Frame.steady_receiver c.limit) (.inl rfl)
  rw [Receiver.settle_of_done (Frame.run_eq_ok_iff.2 ⟨hm, hin⟩), Prod.mk.injEq] at hsettle
  exact ⟨congrArg (Result.ofOutcome .message) hsettle.1, hsettle.2⟩

/-- A message that was read is readable, and its frame was in front. -/
theorem encode_of_read {m : Message} (h : (c.read none).1 = .ok m) :
    m.Readable c.limit ∧
      c.stream.incoming = Frame.encode m ++ (c.read none).2.stream.incoming := by
  have hcases := Frame.reading_cases ((read_eq c).symm)
  obtain ⟨hwhole, hdecode⟩ := (hcases.1 m).1 h
  have hleft := hcases.2.2.2.2.2.1 hwhole
  refine ⟨?_, ?_⟩
  · obtain ⟨-, -, rfl⟩ := Frame.decode_eq_ok_iff.1 hdecode
    refine Frame.readable_ofBody (Nat.le_trans ?_ hwhole.2.1)
    exact List.length_take_le _ _
  · rw [hleft, Frame.encode_of_decode hdecode, List.take_append_drop]

/-- Readable messages are read back one after the other. -/
theorem readEach_encode (ms : List Message) (rest : Bytes) (hms : ∀ m ∈ ms, m.Readable c.limit)
    (hin : c.stream.incoming = ms.flatMap Frame.encode ++ rest) :
    (c.readEach ms.length).1 = ms.map .ok ∧ (c.readEach ms.length).2.stream.incoming = rest := by
  induction ms generalizing c with
  | nil => exact ⟨rfl, hin⟩
  | cons m ms ih =>
      rw [List.flatMap_cons, List.append_assoc] at hin
      obtain ⟨hfirst, hleft⟩ := read_encode (hms m List.mem_cons_self) hin
      obtain ⟨hothers, hrest⟩ := ih (c := (c.read none).2)
        (fun m' hm' => hms m' (List.mem_cons_of_mem m hm')) hleft
      exact ⟨List.cons_eq_cons.2 ⟨hfirst, hothers⟩, hrest⟩

/-- Readers stay in step.  The joined frames of messages, cut in any way and with any pauses, are
read back one after the other, and reading stops right behind them.  On any stream, what comes of
reading and what is left depends on the bytes and the end only (`Frame.reading`).  A message takes
its length word and the declared length.  The peer is blamed exactly for a length over the limit, and
then the length word is taken.  Otherwise the end decides. -/
theorem reading_in_step (c : Connection) :
    (∀ (ms : List Message) (rest : Bytes), (∀ m ∈ ms, m.Readable c.limit) →
      c.stream.incoming = ms.flatMap Frame.encode ++ rest →
      (c.readEach ms.length).1 = ms.map .ok ∧
        (c.readEach ms.length).2.stream.incoming = rest) ∧
    let bytes := c.stream.incoming
    let result := (c.read none).1
    let left := (c.read none).2.stream.incoming
    Frame.reading c.limit bytes c.stream.ending = (result, left) ∧
    (∀ m, result = .ok m ↔ Frame.Whole c.limit bytes ∧ Frame.decode bytes = .ok m) ∧
    (∀ cause, result = .error (.violation cause) ↔
      Frame.TooLong c.limit bytes ∧ cause = .longFrame (BigEndian.ofBytes bytes) c.limit) ∧
    (result = .error .closed ↔ c.stream.ending = .closed ∧
      ¬ Frame.Whole c.limit bytes ∧ ¬ Frame.TooLong c.limit bytes) ∧
    (∀ e, result = .error (.io e) ↔ c.stream.ending = .reset ∧ e = .reset ∧
      ¬ Frame.Whole c.limit bytes ∧ ¬ Frame.TooLong c.limit bytes) ∧
    (result = .never ↔ c.stream.ending = .silent ∧
      ¬ Frame.Whole c.limit bytes ∧ ¬ Frame.TooLong c.limit bytes) ∧
    (Frame.Whole c.limit bytes → left = bytes.drop (4 + Frame.declared bytes)) ∧
    (Frame.TooLong c.limit bytes → left = bytes.drop 4) := by
  refine ⟨readEach_encode, ?_⟩
  intro bytes result left
  have hreading : Frame.reading c.limit bytes c.stream.ending = (result, left) := (read_eq c).symm
  exact ⟨hreading, Frame.reading_cases hreading⟩

/-- Four messages come in three parts, cut within a length word and within a payload, and the last
part holds a byte of what follows. -/
theorem reading_in_step_three_parts :
    let ms : List Message := [.unchoke, .keepAlive, .have_ 7, ⟨.other 20, [1, 2]⟩]
    let arrivals : List Arrival := [.bytes [0, 0], .pause 3,
      .bytes [0, 1, 1, 0, 0, 0, 0, 0, 0, 0, 5, 4, 0], .bytes [0, 0, 7, 0, 0, 0, 3, 20, 1, 2, 9]]
    let session : Session := .opened ⟨.short ⟨127, 0, 0, 1⟩, 6881⟩ ⟨.zero 20⟩ ⟨[]⟩ 0
    let c : Connection := ⟨session, .start arrivals .silent none none, 5⟩
    (∀ m ∈ ms, m.Readable c.limit) ∧ c.stream.incoming = ms.flatMap Frame.encode ++ [9] ∧
      (c.readEach 4).1 = ms.map .ok ∧ (c.readEach 4).2.stream.incoming = [9] := by
  intro ms arrivals session c
  have hreadable : ∀ m ∈ ms, m.Readable c.limit := by
    intro m hm
    simp only [ms, List.mem_cons, List.not_mem_nil, or_false] at hm
    rcases hm with rfl | rfl | rfl | rfl
    · exact .inr ⟨nofun, nofun, by decide⟩
    · exact .inl rfl
    · exact .inr ⟨nofun, nofun, by decide⟩
    · refine .inr ⟨nofun, fun id hid hother => ?_, by decide⟩
      cases hother
      exact absurd hid (by decide)
  have hin : c.stream.incoming = ms.flatMap Frame.encode ++ [9] := by decide +kernel
  exact ⟨hreadable, hin, (reading_in_step c).1 ms [9] hreadable hin⟩

end Connection

end Torrent
