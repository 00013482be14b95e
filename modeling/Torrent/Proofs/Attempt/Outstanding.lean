import Mathlib.Data.List.Perm.Subperm
import Torrent.Proofs.Attempt.Pipeline

/-!
# Requests without their block

The backlog of an attempt is a number: a request that goes out raises it, and every
accepted block lowers it, whatever it is for.  So it is not the number of requests that
wait for their block.  Those are fewer than the window and the blocks that were no first
answer together (`Course.outstanding_bounded`), hence fewer than the window where every
block answers a request and no two answer the same one.

A block without bytes is accepted and answers nothing.  After it one request more is out
than the window allows (`Course.outstanding_beyond_window`).
-/

namespace Torrent

/-- A block is what a request asked for. -/
def Block.Answers (b : Block) (r : BlockRequest) : Prop :=
  b.start = r.start.toNat ∧ b.bytes.length = r.length.toNat

instance (b : Block) (r : BlockRequest) : Decidable (b.Answers r) :=
  inferInstanceAs (Decidable (_ ∧ _))

/-- Two blocks are for the same stretch of the piece. -/
def Block.Twin (b b' : Block) : Prop := b.start = b'.start ∧ b.bytes.length = b'.bytes.length

namespace Course

variable {spec : PieceSpec} {x y : Course}

/-- The requests whose block was accepted. -/
def answered (x : Course) : List BlockRequest :=
  x.asked.filter fun r => x.accepted.any fun b => decide (b.Answers r)

/-- The requests that went out and whose block was not accepted. -/
def outstanding (x : Course) : List BlockRequest :=
  x.asked.filter fun r => !x.accepted.any fun b => decide (b.Answers r)

theorem length_answered_add (x : Course) :
    x.answered.length + x.outstanding.length = x.asked.length :=
  (List.length_eq_length_filter_add _).symm

/-! ## What the backlog counts -/

/-- Every request that went out is counted in the backlog, or was taken off for a block. -/
structure Charged (x : Course) : Prop where
  fitted : x.Fitted
  count : x.asked.length ≤ x.attempt.backlog.toNat + x.accepted.length

theorem charged_start (s : Session) (spec : PieceSpec) (blockSize : UInt32) :
    (start s spec blockSize).Charged :=
  ⟨fitted_start s spec blockSize, Nat.zero_le _⟩

/-- A message takes no more off the backlog than the blocks it brings. -/
theorem backlog_le_afterMessage (a : Attempt) (m : Message) :
    a.backlog.toNat ≤ (a.afterMessage m).backlog.toNat + m.brought?.toList.length := by
  rw [Attempt.afterMessage]
  cases m.brought? with
  | none => exact Nat.le_refl _
  | some b =>
      show a.backlog.toNat ≤ (Attempt.oneAnswered a.backlog).toNat + 1
      rw [Attempt.oneAnswered]
      split
      next hzero =>
        rw [hzero]
        exact Nat.zero_le _
      next hpos =>
        have hne : a.backlog.toNat ≠ 0 := fun h0 => hpos (UInt32.toNat_inj.1 h0)
        have hone : (1 : UInt32) ≤ a.backlog := by
          rw [UInt32.le_iff_toNat_le]
          exact Nat.pos_of_ne_zero hne
        rw [UInt32.toNat_sub_of_le _ _ hone]
        show _ ≤ a.backlog.toNat - 1 + 1
        omega

theorem Charged.step (h : x.Charged) (hstep : x.Step y) : y.Charged := by
  refine ⟨hstep.fitted h.fitted, ?_⟩
  have hcount := h.count
  cases hstep.effect h.fitted with
  | asks r hr hattempt hasked haccepted =>
      obtain ⟨-, hmore⟩ := Attempt.toNat_afterRequest hr
      rw [hattempt, hmore, hasked, haccepted, List.length_append, List.length_singleton]
      omega
  | obeys m hsuits hattempt hasked haccepted =>
      have hless := backlog_le_afterMessage x.attempt m
      rw [hattempt, hasked, haccepted, List.length_append]
      omega
  | passes state hattempt hasked haccepted =>
      rw [hattempt, hasked, haccepted]
      exact hcount

theorem Charged.reaches (h : x.Charged) (hreaches : x.Reaches y) : y.Charged := by
  induction hreaches with
  | refl => exact h
  | tail _ hstep ih => exact ih.step hstep

/-! ## Blocks that answer -/

/-- Where every block answers a request and no two are for the same stretch, there are no more
blocks than requests that were answered. -/
theorem length_accepted_le (hall : ∀ b ∈ x.accepted, ∃ r ∈ x.asked, b.Answers r)
    (hapart : x.accepted.Pairwise fun b b' => ¬ b.Twin b') :
    x.accepted.length ≤ x.answered.length := by
  have hnodup : (x.accepted.map fun b => (b.start, b.bytes.length)).Nodup := by
    refine List.pairwise_map.2 (hapart.imp fun hnot heq => hnot ?_)
    exact ⟨congrArg Prod.fst heq, congrArg Prod.snd heq⟩
  have hsub : (x.accepted.map fun b => (b.start, b.bytes.length)) ⊆
      x.answered.map fun r => (r.start.toNat, r.length.toNat) := by
    intro stretch hstretch
    obtain ⟨b, hb, rfl⟩ := List.mem_map.1 hstretch
    obtain ⟨r, hr, hanswers⟩ := hall b hb
    refine List.mem_map.2 ⟨r, List.mem_filter.2 ⟨hr, ?_⟩, ?_⟩
    · exact List.any_eq_true.2 ⟨b, hb, decide_eq_true hanswers⟩
    · rw [hanswers.1, hanswers.2]
  have hle := (List.subperm_of_subset hnodup hsub).length_le
  rwa [List.length_map, List.length_map] at hle

/-- When a request goes out, the requests that went out before it and wait for their block are fewer
than the window and the blocks that were no first answer to a request.  Where there are no such
blocks they are fewer than the window. -/
theorem outstanding_bounded {session : Session} {blockSize : UInt32} {r : BlockRequest}
    (hx : (start session spec blockSize).Reaches x) (hstep : x.Step y)
    (hasks : y.asked = x.asked ++ [r]) :
    x.answered.length + x.outstanding.length < x.session.window.toNat + x.accepted.length ∧
      ((∀ b ∈ x.accepted, ∃ r ∈ x.asked, b.Answers r) →
        x.accepted.Pairwise (fun b b' => ¬ b.Twin b') →
        x.outstanding.length < x.session.window.toNat) := by
  have hcharged := (charged_start session spec blockSize).reaches hx
  have hbacklog : x.attempt.backlog.toNat < x.session.window.toNat := by
    cases hstep.effect hcharged.fitted with
    | asks r' hr hattempt hasked => exact (Attempt.nextRequest?_eq_some hr).2.1
    | obeys m hsuits hattempt hasked =>
        rw [hasked] at hasks
        exact absurd hasks (by simp)
    | passes state hattempt hasked =>
        rw [hasked] at hasks
        exact absurd hasks (by simp)
  have hcount := hcharged.count
  have hsplit := x.length_answered_add
  refine ⟨by omega, fun hall hapart => ?_⟩
  have hle := length_accepted_le hall hapart
  omega

/-- The block of the first request has come when the second one goes out. -/
theorem outstanding_bounded_second_request :
    let spec : PieceSpec := ⟨3, .zero 20, 5⟩
    let session : Session := { Session.opened ⟨.short ⟨127, 0, 0, 1⟩, 6881⟩ ⟨.zero 20⟩ ⟨[]⟩ 0 with
      choked := false, throughput := { Throughput.startingAt 0 with window := 1 } }
    ∃ x y, (start session spec 2).Reaches x ∧ x.Step y ∧ y.asked = x.asked ++ [⟨3, 2, 2⟩] ∧
      x.accepted = [⟨0, [1, 2]⟩] ∧ x.answered.length = 1 ∧ x.session.window = 1 ∧
      x.answered.length + x.outstanding.length < x.session.window.toNat + x.accepted.length ∧
      x.outstanding.length < x.session.window.toNat := by
  intro spec session
  obtain ⟨x, y, hx, hstep, hasks, hasked, haccepted, hwindow⟩ :
      ∃ x y, (start session spec 2).Reaches x ∧ x.Step y ∧ y.asked = x.asked ++ [⟨3, 2, 2⟩] ∧
        x.asked = [⟨3, 0, 2⟩] ∧ x.accepted = [⟨0, [1, 2]⟩] ∧ x.session.window = 1 :=
    ⟨_, _, .tail (.tail .refl (.asks (r := ⟨3, 0, 2⟩) (by decide +kernel)))
      (.obeys none (show Attempt.handle _ _ 0 (.piece 3 0 [1, 2]) = .ok (_, _, _) from rfl)
        (by simp)),
      .asks (r := ⟨3, 2, 2⟩) (by decide +kernel), rfl, rfl, rfl, rfl⟩
  have hanswers : ∀ b ∈ x.accepted, ∃ r ∈ x.asked, b.Answers r := by
    rw [haccepted, hasked]
    intro b hb
    rw [List.mem_singleton.1 hb]
    exact ⟨_, List.mem_singleton_self _, by decide⟩
  have hapart : x.accepted.Pairwise fun b b' => ¬ b.Twin b' := by
    rw [haccepted]
    exact List.pairwise_singleton _ _
  have hanswered : x.answered.length = 1 := by
    rw [answered, haccepted, hasked]
    decide
  obtain ⟨hcount, hfew⟩ := outstanding_bounded hx hstep hasks
  exact ⟨x, y, hx, hstep, hasks, haccepted, hanswered, hwindow, hcount, hfew hanswers hapart⟩

/-- The window is five, and five requests are out.  The peer sends a block without bytes, and a
sixth request goes out although none of the five was answered. -/
theorem outstanding_beyond_window :
    let spec : PieceSpec := ⟨3, .zero 20, 6⟩
    let session : Session := { Session.opened ⟨.short ⟨127, 0, 0, 1⟩, 6881⟩ ⟨.zero 20⟩ ⟨[]⟩ 0 with
      choked := false }
    let c : Connection :=
      ⟨session, .start [.bytes (Frame.encode (.piece 3 0 []))] .silent none none, 64⟩
    ∃ x y, (start session spec 1).Reaches x ∧ x.Step y ∧ y.asked = x.asked ++ [⟨3, 5, 1⟩] ∧
      x.accepted = [⟨0, []⟩] ∧ x.outstanding.length = 5 ∧ x.session.window = 5 ∧
      (c.download (fun _ => none) 0 (.start spec 1)).2.stream.sent =
        y.written.flatMap Frame.encode := by
  intro spec session c
  have hreaches : (start session spec 1).Reaches _ :=
    .tail (.tail (.tail (.tail (.tail (.tail .refl
      (.asks (r := ⟨3, 0, 1⟩) (by decide +kernel))) (.asks (r := ⟨3, 1, 1⟩) (by decide +kernel)))
      (.asks (r := ⟨3, 2, 1⟩) (by decide +kernel))) (.asks (r := ⟨3, 3, 1⟩) (by decide +kernel)))
      (.asks (r := ⟨3, 4, 1⟩) (by decide +kernel)))
      (.obeys none (show Attempt.handle _ _ 0 (.piece 3 0 []) = .ok (_, _, _) from rfl) (by simp))
  exact ⟨_, _, hreaches, .asks (r := ⟨3, 5, 1⟩) (by decide +kernel), rfl, rfl,
    by decide +kernel, rfl, by decide +kernel⟩

end Course

end Torrent
