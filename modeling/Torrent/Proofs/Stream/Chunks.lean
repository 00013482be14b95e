import Torrent.Stream

/-!
# Chunks do not matter

A receiver is steady if less than it asked for leaves it waiting for the others.
What a steady receiver makes of bytes does not depend on how they are cut
(`Receiver.Steady.run_append`), so reading from a stream is reading all bytes of
the stream at once: `Receiver.settle` says what comes of it and what is left, and
`Stream.receive_settle` that reading comes to that, as long as no deadline passes
in a pause.
-/

namespace Torrent

variable {α : Type} {r : Receiver α}

/-! ## Steady receivers -/

namespace Receiver

/-- Less than was asked for is held, and the others are still wanted. -/
def Steady (r : Receiver α) : Prop :=
  ∀ (held kept : Bytes) (room : Nat) (pos : 0 < room), r.next held = .more kept room pos →
    ∀ (part : Bytes) (h : part.length < room),
      r.next (kept ++ part) = .more (kept ++ part) (room - part.length) (Nat.sub_pos_of_lt h)

variable {held kept available : Bytes} {room : Nat} {pos : 0 < room} {a : α}

theorem run_of_done (h : r.next held = .done a) (available : Bytes) :
    r.run held available = (.done a, available) := by
  rw [run, h]

theorem run_of_more (h : r.next held = .more kept room pos) (available : Bytes) :
    r.run held available =
      if available = [] then (.more kept room pos, [])
      else r.run (kept ++ available.take room) (available.drop room) := by
  rw [run, h]

namespace Steady

variable (hr : r.Steady)
include hr

/-- A receiver that waits goes on waiting with what it holds. -/
theorem next_kept (h : r.next held = .more kept room pos) :
    r.next kept = .more kept room pos := by
  have := hr held kept room pos h [] pos
  simpa using this

/-- A receiver that waits reads on as it would have without a look in between. -/
theorem run_kept (h : r.next held = .more kept room pos) (available : Bytes) :
    r.run kept available = r.run held available := by
  rw [run_of_more h, run_of_more (hr.next_kept h)]

/-- A receiver that waits takes what it asked for. -/
theorem run_take (h : r.next held = .more kept room pos) (available : Bytes) :
    r.run held available = r.run (kept ++ available.take room) (available.drop room) := by
  rw [run_of_more h]
  split
  next hnone =>
    rw [hnone, List.take_nil, List.drop_nil, List.append_nil, run_of_more (hr.next_kept h),
      if_pos rfl]
  next => rfl

/-- Bytes are taken as if they came in two parts. -/
theorem run_append (held front back : Bytes) :
    r.run held (front ++ back) =
      match r.run held front with
      | (.done a, left) => (.done a, left ++ back)
      | (.more kept _ _, _) => r.run kept back := by
  fun_induction run r held front with
  | case1 held front a hnext => rw [run_of_done hnext]
  | case2 held kept room pos hnext => exact (hr.run_kept hnext back).symm
  | case3 held front kept room pos hnext hsome ih =>
      rw [run_of_more hnext, if_neg (by simp [hsome])]
      by_cases hfull : room ≤ front.length
      · rw [List.take_append_of_le_length hfull, List.drop_append_of_le_length hfull, ih]
      · -- The first part does not fill the room, so the receiver waits in between.
        have hpart : front.length < room := Nat.lt_of_not_le hfull
        have hle := Nat.le_of_lt hpart
        have hwait := hr held kept room pos hnext front hpart
        have htake : (front ++ back).take room = front ++ back.take (room - front.length) := by
          rw [List.take_append, List.take_of_length_le hle]
        have hdrop : (front ++ back).drop room = back.drop (room - front.length) := by
          rw [List.drop_append, List.drop_eq_nil_of_le hle, List.nil_append]
        have hall : r.run (kept ++ front.take room) (front.drop room) =
            (.more (kept ++ front) (room - front.length) (Nat.sub_pos_of_lt hpart), []) := by
          rw [List.take_of_length_le hle, List.drop_eq_nil_of_le hle, run_of_more hwait,
            if_pos rfl]
        rw [htake, hdrop, hall, ← List.append_assoc]
        exact (hr.run_take hwait back).symm

end Steady

/-! ## All at once -/

/-- What becomes of waiting with these bytes held when nothing more comes. -/
def stranded (r : Receiver α) (ending : Ending) (deadline : Option Nat) (held : Bytes) :
    Outcome α :=
  match ending with
  | .closed => .failed (r.atEnd held)
  | .reset => .failed (.io .reset)
  | .silent => if deadline.isSome then .late else .never

/-- What comes of reading all these bytes and then the end, and what is left of them. -/
def settle (r : Receiver α) (ending : Ending) (deadline : Option Nat) (held available : Bytes) :
    Outcome α × Bytes :=
  match r.run held available with
  | (.done a, left) => (.got a, left)
  | (.more kept _ _, _) => (r.stranded ending deadline kept, [])

theorem settle_of_done {left : Bytes} (h : r.run held available = (.done a, left))
    (ending : Ending) (deadline : Option Nat) :
    r.settle ending deadline held available = (.got a, left) := by
  rw [settle, h]

theorem settle_of_more {left : Bytes} (h : r.run held available = (.more kept room pos, left))
    (ending : Ending) (deadline : Option Nat) :
    r.settle ending deadline held available = (r.stranded ending deadline kept, []) := by
  rw [settle, h]

theorem Steady.settle_append (hr : r.Steady) (ending : Ending) (deadline : Option Nat)
    (held front back : Bytes) :
    r.settle ending deadline held (front ++ back) =
      match r.run held front with
      | (.done a, left) => (.got a, left ++ back)
      | (.more kept _ _, _) => r.settle ending deadline kept back := by
  rw [settle, hr.run_append]
  cases r.run held front with
  | mk need left =>
      cases need with
      | done a => rfl
      | more kept room pos => rfl

end Receiver

/-! ## From a stream -/

/-- The bytes that arrive. -/
def Arrival.content : Arrival → Bytes
  | .bytes b => b
  | .pause _ => []

namespace Stream

/-- The stream never pauses. -/
def Prompt (s : Stream) : Prop := ∀ span, Arrival.pause span ∉ s.arrivals

theorem incoming_eq (s : Stream) : s.incoming = s.arrivals.flatMap Arrival.content := by
  rw [incoming]
  congr 1

theorem flatMap_content_putBack (b : Bytes) (arrivals : List Arrival) :
    (putBack b arrivals).flatMap Arrival.content = b ++ arrivals.flatMap Arrival.content := by
  unfold putBack
  split
  next h => rw [h, List.nil_append]
  next => rfl

/-- What reading leaves of a stream without pauses has none. -/
theorem not_pause_mem_receiveFrom (ending : Ending) (deadline : Option Nat)
    (arrivals : List Arrival) (hprompt : ∀ span, Arrival.pause span ∉ arrivals) (held : Bytes)
    (now : Nat) (due : Option Nat) (span : Nat) :
    Arrival.pause span ∉ (receiveFrom r ending deadline arrivals held now due).2.arrivals := by
  induction arrivals generalizing held with
  | nil =>
      simp only [receiveFrom, receiveAtEnd]
      split
      · exact List.not_mem_nil
      · split
        · exact List.not_mem_nil
        · exact List.not_mem_nil
        · split <;> exact List.not_mem_nil
  | cons arrival rest ih =>
      have hrest : ∀ span, Arrival.pause span ∉ rest := fun span h =>
        hprompt span (List.mem_cons_of_mem _ h)
      cases arrival with
      | pause span' => exact absurd List.mem_cons_self (hprompt span')
      | bytes b =>
          rw [receiveFrom]
          split
          next a left hrun =>
            simp only [putBack]
            split
            · exact hrest span
            · exact fun h => hrest span ((List.mem_cons.1 h).resolve_left nofun)
          next kept room pos left hrun => exact ih hrest kept

/-- Behind the last arrival a receiver has what it waited for, or the end decides. -/
theorem receiveAtEnd_settle (r : Receiver α) (ending : Ending) (deadline : Option Nat)
    (held : Bytes) (now : Nat) :
    ((receiveAtEnd r ending deadline held now).1,
        (receiveAtEnd r ending deadline held now).2.arrivals.flatMap Arrival.content) =
      r.settle ending deadline held [] := by
  cases hnext : r.next held with
  | done a =>
      rw [Receiver.settle_of_done (Receiver.run_of_done hnext []), receiveAtEnd.eq_def, hnext]
      rfl
  | more kept room pos =>
      rw [Receiver.settle_of_more (Receiver.run_of_more hnext []), receiveAtEnd.eq_def, hnext]
      cases ending with
      | closed => rfl
      | reset => rfl
      | silent => cases deadline <;> rfl

/-- Reading arrival by arrival is reading all their bytes at once, where no deadline can pass in a
pause. -/
theorem receiveFrom_settle (hr : r.Steady) (ending : Ending) {deadline : Option Nat}
    (arrivals : List Arrival)
    (hprompt : deadline = none ∨ ∀ span, Arrival.pause span ∉ arrivals) (held : Bytes)
    (now : Nat) (due : Option Nat) :
    ((receiveFrom r ending deadline arrivals held now due).1,
        (receiveFrom r ending deadline arrivals held now due).2.arrivals.flatMap Arrival.content) =
      r.settle ending deadline held (arrivals.flatMap Arrival.content) := by
  induction arrivals generalizing held now due with
  | nil => exact receiveAtEnd_settle r ending deadline held now
  | cons arrival rest ih =>
      have hrest : deadline = none ∨ ∀ span, Arrival.pause span ∉ rest :=
        hprompt.imp_right fun h span hmem => h span (List.mem_cons_of_mem _ hmem)
      cases arrival with
      | bytes b =>
          rw [List.flatMap_cons, Arrival.content, hr.settle_append, receiveFrom]
          cases r.run held b with
          | mk need left =>
              cases need with
              | done a => simp only [flatMap_content_putBack]
              | more kept room pos => exact ih hrest kept now due
      | pause span =>
          rw [List.flatMap_cons, Arrival.content, List.nil_append, receiveFrom]
          cases hnext : r.next held with
          | done a =>
              rw [Receiver.settle_of_done (Receiver.run_of_done hnext _)]
              rfl
          | more kept room pos =>
              have hnone : deadline = none :=
                hprompt.resolve_right fun h => h span List.mem_cons_self
              subst hnone
              rw [Receiver.settle, ← hr.run_kept hnext, ← Receiver.settle]
              exact ih hrest kept _ none

variable {s : Stream} {deadline : Option Nat}

/-- Reading from a stream is reading all its bytes at once, where no deadline can pass in a
pause. -/
theorem receive_settle (hr : r.Steady) (hprompt : deadline = none ∨ s.Prompt) :
    ((s.receive r deadline).1, (s.receive r deadline).2.incoming) =
      r.settle s.ending deadline [] s.incoming := by
  rw [incoming_eq, incoming_eq]
  exact receiveFrom_settle hr s.ending s.arrivals hprompt [] s.now s.due

theorem Prompt.receive (h : s.Prompt) (r : Receiver α) (deadline : Option Nat) :
    (s.receive r deadline).2.Prompt :=
  not_pause_mem_receiveFrom s.ending deadline s.arrivals h [] s.now s.due

end Stream

end Torrent
