import Torrent.Proofs.Session.Opening

/-!
# Greetings over a stream

Once our greeting went out, the bytes that come decide what becomes of the exchange,
and of those only the first 68 and, where there are fewer, how the stream ends
(`Handshake.reply`).  Where the stream is cut does not matter, and what follows the
greeting of the other side stays unread (`Stream.greetings_exchanged`).
-/

namespace Torrent

namespace Handshake

variable {ours : Handshake} {bytes bytes' : Bytes} {ending ending' : Ending}

/-- What reading a greeting comes to when the end comes before the greeting does. -/
def unfinished (bytes : Bytes) : Ending → Result Handshake
  | .closed => .error (if bytes = [] then .closed else .handshake (.invalidLength bytes.length))
  | .reset => .error (.io .reset)
  | .silent => .never

/-- What reading a greeting comes to when these are all bytes that come. -/
def reply (ours : Handshake) (bytes : Bytes) (ending : Ending) : Result Handshake :=
  if size ≤ bytes.length then
    match ours.accept (bytes.take size) with
    | .ok theirs => .ok theirs
    | .error failure => .error (.handshake failure)
  else unfinished bytes ending

theorem settle_receiver (ours : Handshake) (bytes : Bytes) (ending : Ending) :
    (Result.ofOutcome .handshake (ours.receiver.settle ending none [] bytes).1,
        (ours.receiver.settle ending none [] bytes).2) =
      (ours.reply bytes ending, bytes.drop size) := by
  by_cases hfull : size ≤ bytes.length
  · have hrun : ours.receiver.run [] bytes = _ := run_of_full hfull
    rw [reply, if_pos hfull]
    cases haccept : ours.accept (bytes.take size) with
    | ok theirs =>
        rw [haccept] at hrun
        rw [Receiver.settle_of_done hrun]
        rfl
    | error failure =>
        rw [haccept] at hrun
        rw [Receiver.settle_of_done hrun]
        rfl
  · have hshort : bytes.length < size := Nat.lt_of_not_le hfull
    rw [reply, if_neg hfull, Receiver.settle_of_more (run_of_short hshort),
      List.drop_eq_nil_of_le (Nat.le_of_lt hshort)]
    cases ending <;> rfl

/-- Nothing matters behind the first 68 bytes, and the end does not either where so many come. -/
theorem reply_congr (hfront : bytes.take size = bytes'.take size)
    (hending : ending = ending' ∨ size ≤ bytes.length) :
    ours.reply bytes ending = ours.reply bytes' ending' := by
  have hlength := congrArg List.length hfront
  rw [List.length_take, List.length_take] at hlength
  by_cases hfull : size ≤ bytes.length
  · rw [reply, reply, if_pos hfull, if_pos (by omega), hfront]
  · have hsame : bytes = bytes' := by
      rwa [List.take_of_length_le (by omega), List.take_of_length_le (by omega)] at hfront
    rw [hsame, hending.resolve_right hfull]

/-- What is made of the greeting in front: it answers ours, names another torrent, or is of another
protocol. -/
theorem accept_front_cases (ours : Handshake) (h : size ≤ bytes.length) :
    (protocol <+: bytes ∧ (bytes.drop 28).take 20 = ours.infoHash.octets.bytes ∧
      ∃ theirs, theirs.encode = bytes.take size ∧ ours.accept (bytes.take size) = .ok theirs) ∨
    (protocol <+: bytes ∧ (bytes.drop 28).take 20 ≠ ours.infoHash.octets.bytes ∧
      ours.accept (bytes.take size) = .error .infoHashMismatch) ∨
    (¬ protocol <+: bytes ∧ ours.accept (bytes.take size) = .error .wrongProtocol) := by
  have hprotocol : protocol <+: bytes.take size ↔ protocol <+: bytes := by
    rw [protocol_prefix_iff, protocol_prefix_iff, List.take_take]
    rfl
  have hfield : ((bytes.take size).drop 28).take 20 = (bytes.drop 28).take 20 := by
    rw [List.drop_take, List.take_take]
    rfl
  have hcases := accept_cases ours (List.length_take_of_le h)
  rwa [hprotocol, hfield] at hcases

/-- What a result is, by the bytes that come and the end behind them.  Each outcome has its own
cause. -/
structure Decided (ours : Handshake) (bytes : Bytes) (ending : Ending)
    (result : Result Handshake) : Prop where
  ok : (∃ theirs, result = .ok theirs) ↔ size ≤ bytes.length ∧ protocol <+: bytes ∧
    (bytes.drop 28).take 20 = ours.infoHash.octets.bytes
  /-- The greeting is the one that the first 68 bytes spell. -/
  spelled : ∀ theirs, result = .ok theirs → theirs.encode = bytes.take size
  /-- Whatever torrent the bytes name. -/
  wrongProtocol : result = .error (.handshake .wrongProtocol) ↔
    size ≤ bytes.length ∧ ¬ protocol <+: bytes
  infoHashMismatch : result = .error (.handshake .infoHashMismatch) ↔
    size ≤ bytes.length ∧ protocol <+: bytes ∧
      (bytes.drop 28).take 20 ≠ ours.infoHash.octets.bytes
  closed : result = .error .closed ↔ bytes = [] ∧ ending = .closed
  invalidLength : ∀ k, result = .error (.handshake (.invalidLength k)) ↔
    k = bytes.length ∧ 0 < k ∧ k < size ∧ ending = .closed
  io : ∀ e, result = .error (.io e) ↔ bytes.length < size ∧ ending = .reset ∧ e = .reset
  never : result = .never ↔ bytes.length < size ∧ ending = .silent

theorem decided_reply (ours : Handshake) (bytes : Bytes) (ending : Ending) :
    ours.Decided bytes ending (ours.reply bytes ending) := by
  by_cases hfull : size ≤ bytes.length
  · have hshort : ¬ bytes.length < size := Nat.not_lt.2 hfull
    have hsome : bytes ≠ [] := by
      rintro rfl
      exact absurd hfull (by decide)
    have hlength (k : Nat) : ¬ (k = bytes.length ∧ 0 < k ∧ k < size ∧ ending = .closed) := by
      rintro ⟨rfl, -, hk, -⟩
      exact hshort hk
    rw [reply, if_pos hfull]
    rcases accept_front_cases ours hfull with ⟨hprotocol, hsame, theirs, hspelled, haccept⟩ |
      ⟨hprotocol, hother, haccept⟩ | ⟨hprotocol, haccept⟩
    · rw [haccept]
      constructor <;> simp [hfull, hshort, hsome, hlength, hprotocol, hsame, hspelled]
    · rw [haccept]
      constructor <;> simp [hfull, hshort, hsome, hlength, hprotocol, hother]
    · rw [haccept]
      constructor <;> simp [hfull, hshort, hsome, hlength, hprotocol]
  · have hshort : bytes.length < size := Nat.lt_of_not_le hfull
    rw [reply, if_neg hfull]
    cases ending with
    | reset => constructor <;> simp [unfinished, hfull, hshort, eq_comm (a := IoError.reset)]
    | silent => constructor <;> simp [unfinished, hfull, hshort]
    | closed =>
        by_cases hnone : bytes = []
        · have hzero (k : Nat) : ¬ (k = bytes.length ∧ 0 < k ∧ k < size) := by
            rintro ⟨rfl, hpos, -⟩
            exact List.length_pos_iff.1 hpos hnone
          have hclosed : bytes = [] ↔ True := iff_true_intro hnone
          constructor <;> simp [unfinished, hfull, hshort, hclosed, hzero]
        · have hlength (k : Nat) :
              bytes.length = k ↔ k = bytes.length ∧ 0 < k ∧ k < size := by
            have hpos := List.length_pos_iff.2 hnone
            omega
          constructor <;> simp [unfinished, hfull, hshort, hnone, hlength]

end Handshake

namespace Stream

variable {s : Stream} {ours : Handshake}

/-- Once our greeting went out, the bytes of the stream and its end decide. -/
theorem exchange_eq (hwritten : (s.write ours.encode).1 = true) :
    ((s.exchange ours none).1, (s.exchange ours none).2.incoming) =
      (ours.reply s.incoming s.ending, s.incoming.drop Handshake.size) := by
  cases hexchange : s.exchange ours none with
  | mk result s' =>
      obtain ⟨hresult, hleft, -⟩ := exchange_spec (.inl rfl) hwritten hexchange
      rw [hresult, hleft, Handshake.settle_receiver]

/-- Exchanging greetings over a stream, provided that ours goes out.  No byte behind the 68th is
taken.  What becomes of the exchange depends on the first 68 bytes and, where there are fewer, on
the end behind them; not on where the stream is cut or pauses.  It comes to a greeting exactly where
68 bytes come with the protocol in front and our torrent in its place, to the one that they spell.
Of 68 other bytes a wrong protocol is reported before a wrong torrent.  A stream that is closed
before is reported as closed if it brought nothing, and else by how much it brought. -/
theorem greetings_exchanged (s : Stream) (ours : Handshake)
    (hwritten : (s.write ours.encode).1 = true) :
    (s.exchange ours none).2.incoming = s.incoming.drop Handshake.size ∧
    (∀ s' : Stream, (s'.write ours.encode).1 = true →
      s'.incoming.take Handshake.size = s.incoming.take Handshake.size →
      s'.ending = s.ending ∨ Handshake.size ≤ s.incoming.length →
      (s'.exchange ours none).1 = (s.exchange ours none).1) ∧
    ours.Decided s.incoming s.ending (s.exchange ours none).1 := by
  obtain ⟨hresult, hleft⟩ := Prod.mk.inj (exchange_eq hwritten)
  refine ⟨hleft, fun s' hwritten' hfront hending => ?_, ?_⟩
  · obtain ⟨hresult', -⟩ := Prod.mk.inj (exchange_eq hwritten')
    rw [hresult, hresult']
    exact (Handshake.reply_congr hfront.symm (hending.imp_left Eq.symm)).symm
  · rw [hresult]
    exact Handshake.decided_reply ours s.incoming s.ending

/-- Bytes of another protocol and another torrent, cut within the name of the protocol and with two
bytes of what follows in the last part, are reported as another protocol, and the two bytes are
left.  It is the same if other bytes follow and the stream is then closed. -/
theorem greetings_exchanged_other_protocol :
    let ours := Handshake.ours ⟨.zero 20⟩ ⟨.zero 20⟩
    let theirs : Bytes := 18 :: List.replicate 67 1
    let s := Stream.start [.bytes (theirs.take 9), .bytes (theirs.drop 9 ++ [2, 3])]
      .silent none none
    let s' := Stream.start [.bytes (theirs.take 67), .bytes (theirs.drop 67 ++ [4])]
      .closed none none
    (s.write ours.encode).1 = true ∧ (s'.write ours.encode).1 = true ∧
      (s.exchange ours none).1 = .error (.handshake .wrongProtocol) ∧
      (s.exchange ours none).2.incoming = [2, 3] ∧
      (s'.exchange ours none).1 = .error (.handshake .wrongProtocol) := by
  intro ours theirs s s'
  have hwritten : (s.write ours.encode).1 = true := by decide +kernel
  have hwritten' : (s'.write ours.encode).1 = true := by decide +kernel
  obtain ⟨hleft, hsame, hdecided⟩ := greetings_exchanged s ours hwritten
  have hwrong : (s.exchange ours none).1 = .error (.handshake .wrongProtocol) :=
    hdecided.wrongProtocol.2 (by decide +kernel)
  refine ⟨hwritten, hwritten', hwrong, hleft, ?_⟩
  rw [hsame s' hwritten' (by decide +kernel) (.inr (by decide +kernel)), hwrong]

end Stream

end Torrent
