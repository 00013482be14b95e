import Torrent.Proofs.Stream.Chunks

/-!
# Reading against the clock

To a reader that waits, a stream brings each of its bytes at a time of its own
(`Stream.times`), and then its end (`Stream.endsAt`).  So there is a time when all is
there that a receiver needs for its answer (`Stream.answersAt`).

Reading under a deadline looks at nothing else (`Stream.receive_deadline`): where that
time is not past the deadline, it comes to the same as reading without one, with the
same stream left at the same time, and otherwise it is late.  The deadline is one for
the whole answer.  What comes before it, in however many parts, does not move it.

Two lemmas say what reading does to the schedule.  The bytes that an answer took are
gone from it, and nothing else (`Stream.receive_got`).  Where reading is late and no
byte had come, it is as it was (`Stream.receive_late`).
-/

namespace Torrent

variable {α : Type} {r : Receiver α}

/-! ## Receivers and outcomes -/

namespace Receiver

theorem length_left_le (r : Receiver α) (held available : Bytes) :
    (r.run held available).2.length ≤ available.length := by
  fun_induction run r held available with
  | case1 => exact Nat.le_refl _
  | case2 => exact Nat.zero_le _
  | case3 held available kept room pos hnext hsome ih =>
      rw [List.length_drop] at ih
      omega

/-- A receiver that waits takes a byte at least. -/
theorem length_left_lt {held kept available left : Bytes} {room : Nat} {pos : 0 < room} {a : α}
    (hnext : r.next held = .more kept room pos)
    (hrun : r.run held available = (.done a, left)) : left.length < available.length := by
  rw [run_of_more hnext] at hrun
  split at hrun
  next => cases hrun
  next hsome =>
    have hle := r.length_left_le (kept ++ available.take room) (available.drop room)
    have hlength := List.length_pos_iff.2 hsome
    rw [hrun, List.length_drop] at hle
    simp only at hle
    omega

end Receiver

theorem Outcome.got_ne_never (a : α) : Outcome.got a ≠ .never := by
  intro h
  cases h

theorem Outcome.failed_ne_never (e : PeerError) : (Outcome.failed e : Outcome α) ≠ .never := by
  intro h
  cases h

namespace Stream

/-! ## The schedule -/

/-- When the pause in front is over. -/
def resumesAt (span now : Nat) (due : Option Nat) : Nat := max now (due.getD (now + span))

/-- When each of the bytes is there. -/
def timesFrom : List Arrival → Nat → Option Nat → List Nat
  | [], _, _ => []
  | .bytes b :: rest, now, due => List.replicate b.length now ++ timesFrom rest now due
  | .pause span :: rest, now, due => timesFrom rest (resumesAt span now due) none

/-- When all arrivals are over. -/
def overFrom : List Arrival → Nat → Option Nat → Nat
  | [], now, _ => now
  | .bytes _ :: rest, now, due => overFrom rest now due
  | .pause span :: rest, now, due => overFrom rest (resumesAt span now due) none

/-- When each of the bytes to come is there, to a reader that waits from now on. -/
def times (s : Stream) : List Nat := timesFrom s.arrivals s.now s.due

/-- When the first `n` bytes are there, if so many come. -/
def readyAt (s : Stream) (n : Nat) : Option Nat := (s.now :: s.times)[n]?

/-- When the end of the stream is there, if it has one. -/
def endsAt (s : Stream) : Option Nat :=
  if s.ending = .silent then none else some (overFrom s.arrivals s.now s.due)

/-- When all is there that a receiver needs for its answer, if it ever is: the bytes that it takes,
or the end where they do not come. -/
def answersAt (s : Stream) (r : Receiver α) : Option Nat :=
  match r.run [] s.incoming with
  | (.done _, left) => s.readyAt (s.incoming.length - left.length)
  | (.more _ _ _, _) => s.endsAt

/-! ## With a deadline and without one -/

variable {ending : Ending} {arrivals rest : List Arrival} {held kept left : Bytes} {room : Nat}
  {pos : 0 < room} {a : α} {span now d : Nat} {due : Option Nat}

theorem receiveFrom_pause_of_done (hnext : r.next held = .done a) (deadline : Option Nat) :
    receiveFrom r ending deadline (.pause span :: rest) held now due =
      (.got a, ⟨.pause span :: rest, due, now⟩) := by
  rw [receiveFrom, hnext]

/-- A receiver that waits sits out a pause. -/
theorem receiveFrom_pause (hnext : r.next held = .more kept room pos) :
    receiveFrom r ending none (.pause span :: rest) held now due =
      receiveFrom r ending none rest kept (resumesAt span now due) none := by
  rw [receiveFrom, hnext]
  rfl

/-- A receiver that waits sits out a pause if it is over by the deadline. -/
theorem receiveFrom_pause_some (hnext : r.next held = .more kept room pos) (hd : now ≤ d) :
    receiveFrom r ending (some d) (.pause span :: rest) held now due =
      if d < resumesAt span now due then
        (.late, ⟨.pause span :: rest, some (due.getD (now + span)), d⟩)
      else receiveFrom r ending (some d) rest kept (resumesAt span now due) none := by
  have hpast : isPast (some d) (due.getD (now + span)) = true ↔ d < resumesAt span now due := by
    simp only [isPast, decide_eq_true_eq, resumesAt]
    omega
  rw [receiveFrom, hnext]
  simp only [hpast, Option.getD_some, Nat.max_eq_right hd]
  rfl

theorem now_le_receiveFrom (r : Receiver α) (ending : Ending) (arrivals : List Arrival)
    (held : Bytes) (now : Nat) (due : Option Nat) :
    now ≤ (receiveFrom r ending none arrivals held now due).2.now := by
  induction arrivals generalizing held now due with
  | nil =>
      rw [receiveFrom, receiveAtEnd.eq_def]
      split
      next => exact Nat.le_refl now
      next => cases ending <;> exact Nat.le_refl now
  | cons arrival rest ih =>
      cases arrival with
      | bytes b =>
          rw [receiveFrom]
          split
          next => exact Nat.le_refl now
          next => exact ih _ now due
      | pause span =>
          cases hnext : r.next held with
          | done a =>
              exact Nat.le_of_eq (by rw [receiveFrom_pause_of_done hnext])
          | more kept room pos =>
              rw [receiveFrom_pause hnext]
              exact Nat.le_trans (Nat.le_max_left _ _) (ih kept _ none)

/-- What reading under a deadline comes to, beside reading without one: the same where that comes to
something by the deadline, and else it is late, and gives up at the deadline. -/
structure Bounded (d : Nat) (plain timed : Outcome α × Left) : Prop where
  same : plain.1 ≠ .never → plain.2.now ≤ d → timed = plain
  late : plain.1 = .never ∨ d < plain.2.now → timed.1 = .late ∧ timed.2.now = d

/-- Something that comes at once. -/
theorem Bounded.refl {outcome : Outcome α} {left : Left} (hsome : outcome ≠ .never)
    (hd : left.now ≤ d) : Bounded d (outcome, left) (outcome, left) :=
  ⟨fun _ _ => rfl, fun h => (h.elim hsome (Nat.not_lt.2 hd)).elim⟩

/-- The deadline is felt in a pause and behind the last arrival only. -/
theorem receiveFrom_bounded (r : Receiver α) (ending : Ending) (arrivals : List Arrival)
    (held : Bytes) (due : Option Nat) (hd : now ≤ d) :
    Bounded d (receiveFrom r ending none arrivals held now due)
      (receiveFrom r ending (some d) arrivals held now due) := by
  induction arrivals generalizing held now due with
  | nil =>
      simp only [receiveFrom, receiveAtEnd.eq_def]
      cases r.next held with
      | done a => exact .refl (Outcome.got_ne_never a) hd
      | more kept room pos =>
          cases ending with
          | closed => exact .refl (Outcome.failed_ne_never _) hd
          | reset => exact .refl (Outcome.failed_ne_never _) hd
          | silent => exact ⟨fun h => absurd rfl h, fun _ => ⟨rfl, Nat.max_eq_right hd⟩⟩
  | cons arrival rest ih =>
      cases arrival with
      | bytes b =>
          rw [receiveFrom, receiveFrom]
          cases r.run held b with
          | mk need left =>
              cases need with
              | done a => exact .refl (Outcome.got_ne_never a) hd
              | more kept room pos => exact ih kept due hd
      | pause span =>
          cases hnext : r.next held with
          | done a =>
              rw [receiveFrom_pause_of_done hnext, receiveFrom_pause_of_done hnext]
              exact .refl (Outcome.got_ne_never a) hd
          | more kept room pos =>
              rw [receiveFrom_pause hnext, receiveFrom_pause_some hnext hd]
              split
              next hpast =>
                -- The pause is over too late, and so is all that comes behind it.
                have hle := now_le_receiveFrom r ending rest kept (resumesAt span now due) none
                exact ⟨fun _ h => absurd hpast (by omega), fun _ => ⟨rfl, rfl⟩⟩
              next hpast => exact ih kept none (Nat.le_of_not_lt hpast)

/-! ## When reading comes to something -/

theorem length_timesFrom (arrivals : List Arrival) (now : Nat) (due : Option Nat) :
    (timesFrom arrivals now due).length = (arrivals.flatMap Arrival.content).length := by
  induction arrivals generalizing now due with
  | nil => rfl
  | cons arrival rest ih =>
      rw [List.flatMap_cons, List.length_append]
      cases arrival with
      | bytes b => rw [timesFrom, List.length_append, List.length_replicate, ih, Arrival.content]
      | pause span => rw [timesFrom, ih, Arrival.content, List.length_nil, Nat.zero_add]

/-- A part of which a front is taken leaves its back, at the same time. -/
theorem drop_timesFrom_of_front {b back : Bytes} {n : Nat} (h : n + back.length = b.length)
    (rest : List Arrival) (now : Nat) (due : Option Nat) :
    (now :: timesFrom (.bytes b :: rest) now due).drop n =
      now :: timesFrom (putBack back rest) now due := by
  have hback : timesFrom (putBack back rest) now due =
      List.replicate back.length now ++ timesFrom rest now due := by
    rw [putBack]
    split
    next hnone => rw [hnone, List.length_nil, List.replicate_zero, List.nil_append]
    next => rfl
  have hleft : b.length + 1 - n = back.length + 1 := by omega
  have hnone : n - (b.length + 1) = 0 := by omega
  rw [hback, timesFrom, ← List.cons_append, ← List.cons_append, ← List.replicate_succ,
    ← List.replicate_succ, List.drop_append, List.drop_replicate, List.length_replicate, hleft,
    hnone, List.drop_zero]

/-- A part that is taken in full leaves what comes behind it. -/
theorem drop_timesFrom_of_full {b : Bytes} {n : Nat} (h : b.length ≤ n) (rest : List Arrival)
    (now : Nat) (due : Option Nat) :
    (now :: timesFrom (.bytes b :: rest) now due).drop n =
      (now :: timesFrom rest now due).drop (n - b.length) := by
  have hshift : now :: timesFrom (.bytes b :: rest) now due =
      List.replicate b.length now ++ now :: timesFrom rest now due := by
    rw [timesFrom, ← List.cons_append, ← List.replicate_succ, List.replicate_succ',
      List.append_assoc, List.singleton_append]
  rw [hshift, List.drop_append, List.drop_replicate, List.length_replicate,
    Nat.sub_eq_zero_of_le h, List.replicate_zero, List.nil_append]

/-- An answer is there when the last of its bytes is, and the bytes behind them keep their times. -/
theorem receiveFrom_got (hr : r.Steady)
    (hrun : r.run held (arrivals.flatMap Arrival.content) = (.done a, left)) {n : Nat}
    (hn : n + left.length = (arrivals.flatMap Arrival.content).length) :
    let read := (receiveFrom r ending none arrivals held now due).2
    read.now :: timesFrom read.arrivals read.now read.due =
      (now :: timesFrom arrivals now due).drop n := by
  induction arrivals generalizing held now due n with
  | nil =>
      have hzero : n = 0 := Nat.eq_zero_of_add_eq_zero_right hn
      rw [receiveFrom, receiveAtEnd.eq_def, hzero, List.drop_zero]
      cases hnext : r.next held with
      | done a => rfl
      | more kept room pos =>
          rw [List.flatMap_nil, Receiver.run_of_more hnext, if_pos rfl] at hrun
          cases hrun
  | cons arrival rest ih =>
      rw [List.flatMap_cons] at hrun hn
      cases arrival with
      | bytes b =>
          rw [Arrival.content, hr.run_append] at hrun
          rw [Arrival.content, List.length_append] at hn
          rw [receiveFrom]
          cases hb : r.run held b with
          | mk need back =>
              rw [hb] at hrun
              cases need with
              | done a' =>
                  cases hrun
                  rw [List.length_append] at hn
                  exact (drop_timesFrom_of_front (by omega) rest now due).symm
              | more kept room pos =>
                  have hle := r.length_left_le kept (rest.flatMap Arrival.content)
                  replace hrun : r.run kept (rest.flatMap Arrival.content) = (.done a, left) := hrun
                  rw [hrun] at hle
                  simp only at hle
                  rw [drop_timesFrom_of_full (by omega)]
                  exact ih hrun (by omega)
      | pause span =>
          rw [Arrival.content, List.nil_append] at hrun hn
          cases hnext : r.next held with
          | done a' =>
              rw [Receiver.run_of_done hnext] at hrun
              cases hrun
              have hzero : n = 0 := Nat.add_eq_right.1 hn
              rw [receiveFrom_pause_of_done hnext, hzero, List.drop_zero]
          | more kept room pos =>
              -- A byte at least is taken behind the pause, so it does not matter when it began.
              have hlt := Receiver.length_left_lt hnext hrun
              obtain ⟨m, rfl⟩ : ∃ m, n = m + 1 := Nat.exists_eq_add_one.2 (by omega)
              rw [receiveFrom_pause hnext, timesFrom, List.drop_succ_cons]
              rw [← hr.run_kept hnext] at hrun
              exact ih hrun hn

/-- Where no answer comes, reading comes to the end when all arrivals are over. -/
theorem receiveFrom_stranded (hr : r.Steady)
    (hrun : r.run held (arrivals.flatMap Arrival.content) = (.more kept room pos, left)) :
    (receiveFrom r ending none arrivals held now due).2.now = overFrom arrivals now due := by
  induction arrivals generalizing held now due with
  | nil =>
      simp only [receiveFrom, receiveAtEnd.eq_def, overFrom]
      cases r.next held with
      | done a => rfl
      | more kept room pos => cases ending <;> rfl
  | cons arrival rest ih =>
      cases arrival with
      | bytes b =>
          rw [List.flatMap_cons, Arrival.content, hr.run_append] at hrun
          rw [receiveFrom, overFrom]
          cases hb : r.run held b with
          | mk need front =>
              rw [hb] at hrun
              cases need with
              | done a => cases hrun
              | more kept room pos => exact ih hrun
      | pause span =>
          rw [List.flatMap_cons, Arrival.content, List.nil_append] at hrun
          cases hnext : r.next held with
          | done a =>
              rw [Receiver.run_of_done hnext] at hrun
              cases hrun
          | more kept room pos =>
              rw [← hr.run_kept hnext] at hrun
              rw [receiveFrom_pause hnext, overFrom]
              exact ih hrun

/-! ## Late, and nothing had come -/

/-- Where reading is late and no byte had come, the schedule is as it was. -/
theorem receiveFrom_late (hd : now ≤ d)
    (hnone : ∀ t, (timesFrom arrivals now due)[0]? = some t → d < t)
    (hlate : (receiveFrom r ending (some d) arrivals held now due).1 = .late) :
    let left := (receiveFrom r ending (some d) arrivals held now due).2
    left.arrivals.flatMap Arrival.content = arrivals.flatMap Arrival.content ∧
      timesFrom left.arrivals left.now left.due = timesFrom arrivals now due := by
  induction arrivals generalizing held now due with
  | nil =>
      simp only [receiveFrom, receiveAtEnd.eq_def] at hlate ⊢
      cases hnext : r.next held with
      | done a =>
          rw [hnext] at hlate
          cases hlate
      | more kept room pos =>
          rw [hnext] at hlate
          cases ending with
          | closed => cases hlate
          | reset => cases hlate
          | silent => exact ⟨rfl, rfl⟩
  | cons arrival rest ih =>
      cases arrival with
      | bytes b =>
          cases b with
          | cons byte b => exact absurd (hnone now rfl) (Nat.not_lt.2 hd)
          | nil =>
              rw [timesFrom, List.length_nil, List.replicate_zero, List.nil_append] at hnone
              rw [receiveFrom] at hlate ⊢
              cases hrun : r.run held [] with
              | mk need left =>
                  rw [hrun] at hlate
                  cases need with
                  | done a => cases hlate
                  | more kept room pos => exact ih hd hnone hlate
      | pause span =>
          cases hnext : r.next held with
          | done a =>
              rw [receiveFrom_pause_of_done hnext] at hlate
              cases hlate
          | more kept room pos =>
              rw [timesFrom] at hnone
              rw [receiveFrom_pause_some hnext hd] at hlate ⊢
              split at hlate
              next hpast =>
                rw [if_pos hpast]
                refine ⟨rfl, ?_⟩
                -- The pause goes on, and is over when it would have been.
                have hsame : resumesAt span d (some (due.getD (now + span))) =
                    resumesAt span now due := by
                  simp only [resumesAt, Option.getD_some] at hpast ⊢
                  omega
                simp only [timesFrom, hsame]
              next hpast =>
                rw [if_neg hpast]
                exact ih (Nat.le_of_not_lt hpast) hnone hlate

/-! ## From a stream -/

variable {s : Stream} {n : Nat}

theorem answersAt_of_done (hrun : r.run [] s.incoming = (.done a, left))
    (hn : n + left.length = s.incoming.length) : s.answersAt r = s.readyAt n := by
  rw [answersAt, hrun]
  simp only
  rw [← hn, Nat.add_sub_cancel]

theorem answersAt_of_more (hrun : r.run [] s.incoming = (.more kept room pos, left)) :
    s.answersAt r = s.endsAt := by
  rw [answersAt, hrun]

theorem readyAt_zero (s : Stream) : s.readyAt 0 = some s.now := rfl

/-- All bytes that come are there some time. -/
theorem exists_readyAt (h : n ≤ s.incoming.length) : ∃ t, s.readyAt n = some t := by
  have hlength : n < (s.now :: s.times).length := by
    rw [List.length_cons, times, length_timesFrom, ← incoming_eq]
    exact Nat.lt_succ_of_le h
  exact ⟨_, List.getElem?_eq_getElem hlength⟩

/-- A receiver that has its answer leaves the other bytes, to come when they would have come. -/
theorem receive_got (hr : r.Steady) (hrun : r.run [] s.incoming = (.done a, left))
    (hn : n + left.length = s.incoming.length) :
    (s.receive r none).1 = .got a ∧ (s.receive r none).2.incoming = left ∧
      ∀ m, (s.receive r none).2.readyAt m = s.readyAt (n + m) := by
  have hsettle := receive_settle hr (s := s) (.inl rfl)
  rw [Receiver.settle_of_done hrun] at hsettle
  obtain ⟨hgot, hleft⟩ := Prod.mk.inj hsettle
  refine ⟨hgot, hleft, fun m => ?_⟩
  rw [incoming_eq] at hrun hn
  have hschedule : (s.receive r none).2.now :: (s.receive r none).2.times =
      (s.now :: s.times).drop n := receiveFrom_got hr hrun hn
  rw [readyAt, readyAt, hschedule, List.getElem?_drop]

/-- Reading comes to something when the answer is there, or never. -/
theorem answersAt_receive (hr : r.Steady) :
    (s.answersAt r = some (s.receive r none).2.now ∧ (s.receive r none).1 ≠ .never) ∨
      (s.answersAt r = none ∧ (s.receive r none).1 = .never) := by
  cases hrun : r.run [] s.incoming with
  | mk need left =>
      cases need with
      | done a =>
          have hle := r.length_left_le [] s.incoming
          rw [hrun] at hle
          have hn := Nat.sub_add_cancel hle
          obtain ⟨hgot, -, hready⟩ := receive_got hr hrun hn
          have hnow := hready 0
          rw [readyAt_zero, Nat.add_zero] at hnow
          refine .inl ⟨(answersAt_of_done hrun hn).trans hnow.symm, ?_⟩
          rw [hgot]
          exact Outcome.got_ne_never a
      | more kept room pos =>
          have hsettle := receive_settle hr (s := s) (.inl rfl)
          rw [Receiver.settle_of_more hrun] at hsettle
          have houtcome := (Prod.mk.inj hsettle).1
          rw [answersAt_of_more hrun, endsAt, houtcome]
          rw [incoming_eq] at hrun
          have hover : (s.receive r none).2.now = overFrom s.arrivals s.now s.due :=
            receiveFrom_stranded hr hrun
          rw [hover]
          cases s.ending with
          | closed => exact .inl ⟨if_neg (by decide), Outcome.failed_ne_never _⟩
          | reset => exact .inl ⟨if_neg (by decide), Outcome.failed_ne_never _⟩
          | silent => exact .inr ⟨if_pos rfl, rfl⟩

/-- Reading under a deadline is reading without one, where all that the receiver needs is there by
the deadline, and else it is late, and gives up at the deadline. -/
theorem receive_deadline (hr : r.Steady) (hd : s.now ≤ d) :
    (∀ t, s.answersAt r = some t → t ≤ d → s.receive r (some d) = s.receive r none) ∧
      ((∀ t, s.answersAt r = some t → d < t) →
        (s.receive r (some d)).1 = .late ∧ (s.receive r (some d)).2.now = d) := by
  obtain ⟨hsame, hlate⟩ := receiveFrom_bounded r s.ending s.arrivals [] s.due hd
  rcases answersAt_receive (s := s) hr with ⟨hanswers, hsome⟩ | ⟨hanswers, hnever⟩
  · rw [hanswers]
    refine ⟨fun t ht hle => ?_, fun h => hlate (.inr (h _ rfl))⟩
    cases ht
    simp only [receive, hsame hsome hle]
  · rw [hanswers]
    refine ⟨fun t ht => ?_, fun _ => hlate (.inl hnever)⟩
    cases ht

/-- Where reading is late and no byte had come, the stream brings what it would have brought, when
it would have. -/
theorem receive_late (hd : s.now ≤ d) (hnone : ∀ t, s.readyAt 1 = some t → d < t)
    (hlate : (s.receive r (some d)).1 = .late) :
    (s.receive r (some d)).2.incoming = s.incoming ∧
      (s.receive r (some d)).2.times = s.times := by
  rw [incoming_eq, incoming_eq]
  exact receiveFrom_late hd hnone hlate

end Stream

end Torrent
