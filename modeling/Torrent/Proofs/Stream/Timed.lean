import Torrent.Proofs.Stream.Framing
import Torrent.Proofs.Stream.Schedule

/-!
# Messages under a deadline

Reading a message under a deadline agrees with reading one without it
(`Connection.timed_reading`).  What decides is when all is there that reading needs
(`Connection.messageAt`): the frame, a length word over the limit, or the end of the
stream where neither comes.  By the deadline it makes no difference, and after it
reading is late.

A read that is late before the first byte has no trace in what is read afterwards.
A later one has, as the bytes that it took are lost with it.
-/

namespace Torrent.Connection

variable {c c' : Connection}

/-- When all is there that reading a message needs, if it ever is. -/
def messageAt (c : Connection) : Option Nat :=
  let bytes := c.stream.incoming
  if Frame.Whole c.limit bytes then c.stream.readyAt (4 + Frame.declared bytes)
  else if Frame.TooLong c.limit bytes then c.stream.readyAt 4
  else c.stream.endsAt

theorem answersAt_receiver (c : Connection) :
    c.stream.answersAt (Frame.receiver c.limit) = c.messageAt := by
  have hlength (n : Nat) (h : n ≤ c.stream.incoming.length) :
      n + (c.stream.incoming.drop n).length = c.stream.incoming.length := by
    rw [List.length_drop]
    omega
  rcases Frame.run_cases c.limit c.stream.incoming with ⟨hwhole, hrun⟩ | ⟨hlong, hrun⟩ |
    ⟨hwhole, hlong, room, pos, hrun⟩
  · rw [messageAt, if_pos hwhole]
    exact Stream.answersAt_of_done hrun (hlength _ hwhole.2.2)
  · rw [messageAt, if_neg fun hwhole => hwhole.not_tooLong hlong, if_pos hlong]
    exact Stream.answersAt_of_done hrun (hlength _ hlong.1)
  · rw [messageAt, if_neg hwhole, if_neg hlong]
    exact Stream.answersAt_of_more hrun

/-- What is read without a deadline depends on the bytes of the stream and on its end only. -/
theorem readEach_congr (n : Nat) (hlimit : c.limit = c'.limit)
    (hin : c.stream.incoming = c'.stream.incoming) (hending : c.stream.ending = c'.stream.ending) :
    (c.readEach n).1 = (c'.readEach n).1 ∧
      (c.readEach n).2.stream.incoming = (c'.readEach n).2.stream.incoming := by
  induction n generalizing c c' with
  | zero => exact ⟨rfl, hin⟩
  | succ n ih =>
      have hread := read_eq c
      rw [hlimit, hin, hending, ← read_eq c'] at hread
      obtain ⟨hfirst, hleft⟩ := Prod.mk.inj hread
      have hrest : ((c.read none).2.readEach n).1 = ((c'.read none).2.readEach n).1 ∧
          ((c.read none).2.readEach n).2.stream.incoming =
            ((c'.read none).2.readEach n).2.stream.incoming := ih hlimit hleft hending
      obtain ⟨hothers, hrest⟩ := hrest
      exact ⟨List.cons_eq_cons.2 ⟨hfirst, hothers⟩, hrest⟩

/-- Reading a message under a deadline agrees with reading one without it.  If all that it needs is
there before the deadline, or at it, the outcome is the same, and so is the stream that is left.  If
that comes later, or never, reading times out at the deadline.  If no byte of the frame had come by
then, what follows comes when it would have come, and is read as if there had been no such
attempt. -/
theorem timed_reading (c : Connection) (span : Nat) :
    let deadline := c.stream.now + span
    let timed := c.read (some deadline)
    (∀ t, c.messageAt = some t → t ≤ deadline → timed = c.read none) ∧
    ((∀ t, c.messageAt = some t → deadline < t) →
      timed.1 = .error (.timeout .message) ∧ timed.2.stream.now = deadline ∧
      ((∀ t, c.stream.readyAt 1 = some t → deadline < t) →
        timed.2.stream.times = c.stream.times ∧
        ∀ n, (timed.2.readEach n).1 = (c.readEach n).1 ∧
          (timed.2.readEach n).2.stream.incoming = (c.readEach n).2.stream.incoming)) := by
  intro deadline timed
  have hd : c.stream.now ≤ deadline := Nat.le_add_right _ span
  obtain ⟨hsame, hlate⟩ :=
    Stream.receive_deadline (s := c.stream) (Frame.steady_receiver c.limit) hd
  rw [answersAt_receiver] at hsame hlate
  refine ⟨fun t hready hle => ?_, fun hafter => ?_⟩
  · simp only [timed, read, hsame t hready hle]
  · obtain ⟨houtcome, hnow⟩ := hlate hafter
    refine ⟨congrArg (Result.ofOutcome .message) houtcome, hnow, fun hnone => ?_⟩
    obtain ⟨hin, htimes⟩ := Stream.receive_late hd hnone houtcome
    exact ⟨htimes, fun n => readEach_congr n rfl hin rfl⟩

/-- A message comes in two parts, the second at seven and with two bytes of the next message.  A
deadline at seven does not disturb it.  One at two is past before anything came, and leaves both
messages to be read. -/
theorem timed_reading_two_parts :
    let session : Session := .opened ⟨.short ⟨127, 0, 0, 1⟩, 6881⟩ ⟨.zero 20⟩ ⟨[]⟩ 0
    let stream := Stream.start [.pause 3, .bytes [0, 0], .pause 4, .bytes [0, 1, 1, 0, 0],
      .pause 1, .bytes [0, 0]] .silent none none
    let c : Connection := ⟨session, stream, 1⟩
    c.messageAt = some 7 ∧ c.stream.readyAt 1 = some 3 ∧
      c.read (some (c.stream.now + 7)) = c.read none ∧
      (c.read (some (c.stream.now + 2))).1 = .error (.timeout .message) ∧
      ((c.read (some (c.stream.now + 2))).2.readEach 2).1 = [.ok .unchoke, .ok .keepAlive] := by
  intro session stream c
  have hready : c.messageAt = some 7 := by decide +kernel
  have hfirst : c.stream.readyAt 1 = some 3 := by decide +kernel
  have hlate : ∀ t, c.messageAt = some t → c.stream.now + 2 < t := by
    rw [hready]
    rintro t ⟨⟩
    decide
  have hnone : ∀ t, c.stream.readyAt 1 = some t → c.stream.now + 2 < t := by
    rw [hfirst]
    rintro t ⟨⟩
    decide
  have hreadable : ∀ m ∈ [Message.unchoke, .keepAlive], m.Readable c.limit :=
    List.forall_mem_cons.2 ⟨.inr ⟨nofun, nofun, by decide⟩, List.forall_mem_singleton.2 (.inl rfl)⟩
  have hin : c.stream.incoming =
      [Message.unchoke, .keepAlive].flatMap Frame.encode ++ [] := by decide +kernel
  obtain ⟨htimeout, -, hafter⟩ := (timed_reading c 2).2 hlate
  refine ⟨hready, hfirst, (timed_reading c 7).1 7 hready (by decide), htimeout, ?_⟩
  rw [((hafter hnone).2 2).1]
  exact (readEach_encode [.unchoke, .keepAlive] [] hreadable hin).1

end Torrent.Connection
