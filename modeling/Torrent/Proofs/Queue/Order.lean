import Mathlib.Data.List.Dedup
import Mathlib.Data.List.Perm.Subperm
import Torrent.Proofs.Queue.Conservation

/-!
# Pieces are claimed in the order in which they wait

What an act does to the queue is said once (`Worksite.queue_act`): at most one piece
goes out, the first of its kind, and at most one comes in, at the back.  So what waits
is all that entered, in order, less the earliest entries of what was claimed
(`Worksite.InTurn`).  Where the pieces differ they stand in the order in which they
last entered, and claimants who take whatever comes first take them exactly in the
order in which they enter.

A site at which nothing waits and nothing is held stays as it is, whatever is done
there (`Worksite.run_of_dry`).
-/

namespace Torrent.Worksite

open scoped List

/-- An act that takes whatever comes first, if it claims at all. -/
def Act.IsPlain : Act → Prop
  | .claim _ suits => ∀ spec, suits spec = true
  | .complete _ | .giveUp _ => True

/-- The piece that an act takes out of the queue. -/
def leaving? (s : Worksite) : Act → Option PieceSpec
  | .claim _ suits =>
    match (s.queue.claim suits).1 with
    | .piece spec => some spec
    | .noMatch | .wait | .drained => none
  | .complete _ | .giveUp _ => none

/-- The piece that an act puts at the back of the queue. -/
def entering? (s : Worksite) : Act → Option PieceSpec
  | .claim name suits => (s.leaving? (.claim name suits)).bind fun _ => s.holding? name
  | .complete _ => none
  | .giveUp name => s.holding? name

/-- The pieces that are picked in a row of acts, one after the other. -/
def along (pick : Worksite → Act → Option PieceSpec) (s : Worksite) : List Act → List PieceSpec
  | [] => []
  | a :: acts => (pick s a).toList ++ along pick (s.act a) acts

/-! ## One act -/

variable {s : Worksite}

theorem pending_giveUp (s : Worksite) (name : String) :
    (s.giveUp name).queue.pending = s.queue.pending ++ (s.holding? name).toList := by
  simp only [giveUp]
  cases s.holding? name with
  | none => exact (List.append_nil _).symm
  | some spec => rfl

theorem pending_complete (s : Worksite) (name : String) :
    (s.complete name).queue.pending = s.queue.pending := by
  simp only [complete]
  cases s.holding? name <;> rfl

/-- What an act does to the queue: a piece goes out, the first of its kind and the first of all if
whatever comes is taken, and a piece comes in at the back. -/
theorem queue_act (s : Worksite) (a : Act) :
    ∃ before behind, s.queue.pending = before ++ (s.leaving? a).toList ++ behind ∧
      (s.act a).queue.pending = before ++ behind ++ (s.entering? a).toList ∧
      (∀ spec ∈ s.leaving? a, spec ∉ before) ∧ (a.IsPlain → before = []) := by
  cases a with
  | claim name suits =>
      simp only [act, Worksite.claim, entering?, leaving?]
      obtain ⟨before, spec, behind, hpending, hbefore, hsuits⟩ | hnone :=
        s.queue.first_cases suits
      · rw [WorkQueue.claim_of_first hpending hbefore hsuits]
        refine ⟨before, behind, ?_, pending_giveUp _ name, fun other hother hmem => ?_,
          fun hplain => ?_⟩
        · rw [hpending]
          exact List.append_cons before spec behind
        · obtain rfl := Option.some.inj hother
          rw [hbefore _ hmem] at hsuits
          cases hsuits
        · -- nothing stands before the piece, since it would suit
          cases before with
          | nil => rfl
          | cons other rest =>
              have hother := hbefore other (List.mem_cons_self ..)
              rw [hplain other] at hother
              cases hother
      · rw [WorkQueue.claim_of_none hnone]
        cases hidle : s.queue.idle with
        | piece spec => exact absurd hidle (s.queue.idle_ne_piece spec)
        | noMatch | wait | drained =>
            exact ⟨[], s.queue.pending, rfl, (List.append_nil _).symm, nofun, fun _ => rfl⟩
  | complete name =>
      refine ⟨[], s.queue.pending, rfl, ?_, nofun, fun _ => rfl⟩
      rw [act, pending_complete]
      exact (List.append_nil _).symm
  | giveUp name => exact ⟨[], s.queue.pending, rfl, pending_giveUp s name, nofun, fun _ => rfl⟩

/-! ## The order of the waiting pieces -/

/-- Who enters behind all that was taken waits behind the others. -/
theorem diff_append {entered left : List PieceSpec} (h : left <+~ entered) (new : List PieceSpec) :
    (entered ++ new).diff left = entered.diff left ++ new := by
  induction left generalizing entered with
  | nil => rfl
  | cons spec left ih =>
      have hmem : spec ∈ entered := h.subset (List.mem_cons_self ..)
      have hleft : left <+~ entered.erase spec := by simpa using h.erase spec
      rw [List.diff_cons, List.diff_cons, List.erase_append_left _ hmem, ih hleft]

/-- Where nothing waits twice, everything waits where it last entered. -/
theorem diff_sublist_dedup {entered left : List PieceSpec} (h : (entered.diff left).Nodup) :
    entered.diff left <+ entered.dedup := by
  induction entered generalizing left with
  | nil => simp
  | cons spec entered ih =>
      by_cases hleft : spec ∈ left
      · rw [List.cons_diff_of_mem hleft] at h ⊢
        by_cases hagain : spec ∈ entered
        · rw [List.dedup_cons_of_mem hagain]
          exact ih h
        · rw [List.dedup_cons_of_notMem hagain]
          exact (ih h).cons spec
      · rw [List.cons_diff_of_not_mem hleft] at h ⊢
        obtain ⟨honce, hrest⟩ := List.nodup_cons.1 h
        have hlast : spec ∉ entered := fun hagain => honce (List.mem_diff_of_mem hagain hleft)
        rw [List.dedup_cons_of_notMem hlast]
        exact (ih hrest).cons_cons spec

/-- What waits is all that entered, in order, less the earliest entries of all that left. -/
structure InTurn (entered left : List PieceSpec) (s : Worksite) : Prop where
  account : (left ++ s.queue.pending).Perm entered
  order : s.queue.pending = entered.diff left

/-- A queue is in turn at the beginning. -/
theorem inTurn_ofPieces (pieces : List PieceSpec) : (ofPieces pieces).InTurn pieces [] :=
  ⟨.refl _, rfl⟩

theorem InTurn.act {entered left : List PieceSpec} (h : s.InTurn entered left) (a : Act) :
    (s.act a).InTurn (entered ++ (s.entering? a).toList) (left ++ (s.leaving? a).toList) := by
  obtain ⟨before, behind, hpending, hact, hfirst, -⟩ := queue_act s a
  have haccount : (left ++ (s.leaving? a).toList ++ (before ++ behind)).Perm entered := by
    refine List.Perm.trans ?_ h.account
    rw [hpending, List.append_assoc]
    refine List.Perm.append_left left ?_
    rw [← List.append_assoc]
    exact List.perm_append_comm.append_right behind
  have horder : before ++ behind = entered.diff (left ++ (s.leaving? a).toList) := by
    rw [List.diff_append, ← h.order, hpending]
    cases hleaving : s.leaving? a with
    | none => simp
    | some spec =>
        simp [List.erase_append_right _ (hfirst spec hleaving)]
  constructor
  · rw [hact, ← List.append_assoc]
    exact haccount.append_right _
  · have hsub : left ++ (s.leaving? a).toList <+~ entered :=
      (List.sublist_append_left _ _).subperm.trans haccount.subperm
    rw [hact, diff_append hsub, horder]

theorem InTurn.run {entered left : List PieceSpec} (h : s.InTurn entered left) (acts : List Act) :
    (s.run acts).InTurn (entered ++ along entering? s acts) (left ++ along leaving? s acts) := by
  induction acts generalizing s entered left with
  | nil => simpa [along, Worksite.run] using h
  | cons a acts ih =>
      rw [along, along, ← List.append_assoc, ← List.append_assoc]
      exact ih (h.act a)

/-- Where whatever comes first is taken, the pieces go out in the order in which they stood and
came. -/
theorem entered_eq_of_isPlain (acts : List Act) (hplain : ∀ a ∈ acts, a.IsPlain) :
    s.queue.pending ++ along entering? s acts =
      along leaving? s acts ++ (s.run acts).queue.pending := by
  induction acts generalizing s with
  | nil => simp [along, run]
  | cons a acts ih =>
      obtain ⟨before, behind, hpending, hact, -, hfirst⟩ := queue_act s a
      obtain rfl := hfirst (hplain a (List.mem_cons_self ..))
      have hrest := ih (s := s.act a) fun other hmem => hplain other (List.mem_cons_of_mem _ hmem)
      rw [List.nil_append] at hpending hact
      calc s.queue.pending ++ along entering? s (a :: acts)
          _ = (s.leaving? a).toList ++ ((s.act a).queue.pending ++
              along entering? (s.act a) acts) := by
            rw [along, hpending, hact]
            simp only [List.append_assoc]
          _ = along leaving? s (a :: acts) ++ (s.run (a :: acts)).queue.pending := by
            rw [hrest, along, List.append_assoc]
            rfl

/-! ## Sites at which all is done -/

/-- Nothing waits and nothing is held. -/
def IsDry (s : Worksite) : Prop := s.queue.pending = [] ∧ s.held = []

theorem act_of_dry (h : s.IsDry) (a : Act) : s.act a = s := by
  have hhold : ∀ name, s.holding? name = none := by
    intro name
    rw [holding?, h.2]
    rfl
  cases a with
  | claim name suits =>
      have hclaim : s.queue.claim suits = (s.queue.idle, s.queue) :=
        WorkQueue.claim_of_none (by simp [h.1])
      simp only [act, Worksite.claim, hclaim]
      cases hidle : s.queue.idle with
      | piece spec => exact absurd hidle (s.queue.idle_ne_piece spec)
      | noMatch | wait | drained => rfl
  | complete name => simp only [act, complete, hhold]
  | giveUp name => simp only [act, giveUp, hhold]

theorem run_of_dry (h : s.IsDry) (acts : List Act) : s.run acts = s := by
  induction acts with
  | nil => rfl
  | cons a acts ih =>
      rw [run, List.foldl_cons, act_of_dry h a]
      exact ih

/-- Who is told that the queue is drained sees a site at which all is done. -/
theorem Balanced.isDry {pieces : List PieceSpec} (hs : s.Balanced pieces)
    {suits : PieceSpec → Bool} (h : (s.queue.claim suits).1 = .drained) : s.IsDry := by
  obtain ⟨-, hidle, -⟩ := WorkQueue.claim_idle (Prod.ext h rfl) nofun
  obtain ⟨hpending, hflight⟩ := WorkQueue.idle_eq_drained.1 hidle.symm
  exact ⟨hpending, List.length_eq_zero_iff.1 (hs.count ▸ hflight)⟩

theorem Balanced.idle_eq {pieces : List PieceSpec} (hs : s.Balanced pieces) :
    s.queue.idle =
      if s.held ≠ [] then .wait else if s.queue.pending ≠ [] then .noMatch else .drained := by
  simp only [WorkQueue.idle, hs.count]
  by_cases hheld : s.held = []
  · by_cases hpending : s.queue.pending = []
    · simp [hheld, hpending]
    · simp [hheld, hpending]
  · simp [hheld]

theorem Balanced.nodup_pending {pieces : List PieceSpec} (hs : s.Balanced pieces)
    (hdistinct : pieces.Nodup) : s.queue.pending.Nodup :=
  (List.nodup_append.1 (List.nodup_append.1 (hs.perm.nodup_iff.2 hdistinct)).1).1

/-- Whatever was done before, a claim gets the first waiting piece that suits, and the others stay
in order.  If none suits, nothing changes, and the answer is to wait while any piece is held, else
that no piece matches while any waits, else that the queue is drained.  Once it is drained it stays
so for everybody.

What waits is all that entered, in order, less the earliest entries of what was claimed.  So pieces
that differ stand in the order in which they last entered, and if every claimant takes whatever
comes first, they are claimed exactly in the order in which they enter. -/
theorem claims_in_turn (pieces : List PieceSpec) (acts : List Act) :
    let s := (ofPieces pieces).run acts
    let entered := pieces ++ along entering? (ofPieces pieces) acts
    let claimed := along leaving? (ofPieces pieces) acts
    (∀ suits before spec behind, s.queue.pending = before ++ spec :: behind →
      (∀ other ∈ before, suits other = false) → suits spec = true →
      s.queue.claim suits = (.piece spec, ⟨before ++ behind, s.queue.inFlight + 1⟩)) ∧
    (∀ suits, (∀ spec ∈ s.queue.pending, suits spec = false) →
      s.queue.claim suits =
        (if s.held ≠ [] then .wait else if s.queue.pending ≠ [] then .noMatch else .drained,
          s.queue)) ∧
    (∀ suits, (s.queue.claim suits).1 = .drained →
      ∀ later suits', ((s.run later).queue.claim suits').1 = .drained) ∧
    s.queue.pending = entered.diff claimed ∧
    (pieces.Nodup → s.queue.pending <+ entered.dedup) ∧
    ((∀ a ∈ acts, a.IsPlain) → entered = claimed ++ s.queue.pending) := by
  intro s entered claimed
  have hs : s.Balanced pieces := (balanced_ofPieces pieces).run acts
  have horder : s.queue.pending = entered.diff claimed := ((inTurn_ofPieces pieces).run acts).order
  refine ⟨fun suits before spec behind => WorkQueue.claim_of_first, fun suits hnone => ?_,
    fun suits hdrained later suits' => ?_, horder, fun hdistinct => ?_,
    entered_eq_of_isPlain (s := ofPieces pieces) acts⟩
  · rw [WorkQueue.claim_of_none hnone, hs.idle_eq]
  · have hdry := hs.isDry hdrained
    rw [run_of_dry hdry later, WorkQueue.claim_of_none (by simp [hdry.1]), hs.idle_eq]
    simp [hdry.1, hdry.2]
  · have honce := hs.nodup_pending hdistinct
    rw [horder] at honce ⊢
    exact diff_sublist_dedup honce

/-- Two holders at three pieces give up in another order than they claimed: behind the piece that
waited all the time, theirs stand as they came back. -/
theorem claims_in_turn_given_back :
    let piece (i : UInt32) : PieceSpec := ⟨i, Octets.zero 20, 16⟩
    let pieces := [piece 0, piece 1, piece 2]
    let acts : List Act := [.claim "a" fun _ => true, .claim "b" fun _ => true, .giveUp "b",
      .giveUp "a", .claim "a" fun _ => true]
    let s := (ofPieces pieces).run acts
    s.queue.pending = [piece 1, piece 0] ∧
      s.queue.pending <+ (pieces ++ [piece 1, piece 0]).dedup ∧
      pieces ++ [piece 1, piece 0] = [piece 0, piece 1, piece 2] ++ s.queue.pending ∧
      s.queue.claim (fun spec => spec.index == 0) =
        (.piece (piece 0), ⟨[piece 1], s.queue.inFlight + 1⟩) ∧
      s.queue.claim (fun spec => spec.index == 2) = (.wait, s.queue) ∧
      (((ofPieces []).run [.giveUp "a", .complete "b"]).queue.claim fun _ => true).1 =
        .drained := by
  intro piece pieces acts s
  obtain ⟨hfirst, hnone, -, -, hturn, hplain⟩ := claims_in_turn pieces acts
  have hentered : along entering? (ofPieces pieces) acts = [piece 1, piece 0] := by decide
  have hleft : along leaving? (ofPieces pieces) acts = [piece 0, piece 1, piece 2] := by decide
  rw [hentered] at hturn hplain
  rw [hleft] at hplain
  have hheld : s.held ≠ [] := by decide
  have hwait := hnone (fun spec => spec.index == 2) (by decide)
  rw [if_pos hheld] at hwait
  refine ⟨by decide, hturn (by decide), hplain ?_, hfirst _ [piece 1] (piece 0) [] (by decide)
    (by decide) (by decide), hwait, ?_⟩
  · simp [acts, Act.IsPlain]
  · exact (claims_in_turn [] []).2.2.1 (fun _ => false) rfl _ _

end Torrent.Worksite
