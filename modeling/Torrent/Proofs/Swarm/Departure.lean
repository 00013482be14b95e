import Torrent.Proofs.Swarm.Ledger

/-!
# No piece is stranded

A task that leaves because nothing is left is right for the rest of the download,
and one that leaves because its peer has nothing to offer leaves behind no piece
that its peer had.  For such a task asks the queue while nobody holds a piece, so
all that is outstanding waits in the queue before its eyes, and nothing is
outstanding later that is not outstanding then.

So if a download ends with pieces missing, no peer was let go too early
(`Swarm.no_piece_stranded`).
-/

namespace Torrent

/-! ## Moves into a departure -/

theorem Move.of_drained {r : PeerRecord} {fault : Option Fault} {w w' : Shared} {p : Phase}
    {s : Session} (h : Move r fault w p w' (.inSession s (.leaving .drained))) :
    p = .inSession s (.leaving .drained) ∨
      ∃ queue, w.queue.claim (fun spec => s.hasPiece spec.index) = (.drained, queue) := by
  cases h with
  | stay => exact .inl rfl
  | reach hp hp' => cases hp'
  | pursued hspec hspec' => cases hspec'
  | drained hclaim => exact .inr ⟨_, hclaim⟩

theorem Move.of_nothingToOffer {r : PeerRecord} {fault : Option Fault} {w w' : Shared} {p : Phase}
    {s : Session} (h : Move r fault w p w' (.inSession s (.leaving .nothingToOffer))) :
    p = .inSession s (.leaving .nothingToOffer) ∨
      w' = w ∧ ∃ queue, w.queue.claim (fun spec => s.hasPiece spec.index) = (.noMatch, queue) := by
  cases h with
  | stay => exact .inl rfl
  | reach hp hp' => cases hp'
  | pursued hspec hspec' => cases hspec'
  | idled hclaim => exact .inr ⟨rfl, _, hclaim⟩

/-- How a departure shows in the end of the task. -/
def Departure.taskEnd : Departure → TaskEnd
  | .drained | .nothingToOffer | .failed _ => .finished
  | .storageFailed e => .storageFailed e

/-- A task is over when its session does not open or when it leaves its session. -/
theorem Move.of_gone {r : PeerRecord} {fault : Option Fault} {w w' : Shared} {p : Phase}
    {result : TaskEnd} {joined : Bool} (h : Move r fault w p w' (.gone result joined)) :
    (p = .gone result joined ∧ w' = w) ∨
      joined = false ∧ (p.isOpening = true ∧ result = .finished ∨
        ∃ s d, p = .inSession s (.leaving d) ∧ result = d.taskEnd) := by
  cases h with
  | stay => exact .inl ⟨rfl, rfl⟩
  | reach hp hp' => cases hp'
  | lost hp => exact .inr ⟨rfl, .inl ⟨hp, rfl⟩⟩
  | departed s => exact .inr ⟨rfl, .inr ⟨s, _, rfl, rfl⟩⟩
  | @dropped s d hd =>
      refine .inr ⟨rfl, .inr ⟨s, d, rfl, ?_⟩⟩
      rcases hd with rfl | ⟨e, rfl⟩
      · rfl
      · rfl
  | gaveUp s e => exact .inr ⟨rfl, .inr ⟨s, _, rfl, rfl⟩⟩

/-- A task that is over does nothing more. -/
theorem Move.from_gone {r : PeerRecord} {fault : Option Fault} {w w' : Shared} {p' : Phase}
    {result : TaskEnd} {joined : Bool} (h : Move r fault w (.gone result joined) w' p') :
    w' = w ∧ p' = .gone result joined := by
  cases h with
  | stay => exact ⟨rfl, rfl⟩
  | reach hp => cases hp
  | opened s hp => cases hp
  | lost hp => cases hp

namespace Swarm

variable {d : Descriptor} {pieces : List PieceSpec} {w w' : Swarm} {e : Event}

/-- The task with a number leaves its session for a reason. -/
def Leaving (w : Swarm) (k : Nat) (s : Session) (reason : Departure) : Prop :=
  ∃ t, w.tasks[k]? = some t ∧ t.phase = .inSession s (.leaving reason)

/-- The task with a number leaves its session in the step between two moments. -/
def Leaves (w w' : Swarm) (k : Nat) (s : Session) (reason : Departure) : Prop :=
  ¬w.Leaving k s reason ∧ w'.Leaving k s reason

/-- The task with a number is over, in the step between two moments, without a session. -/
def Loses (w w' : Swarm) (k : Nat) : Prop :=
  ∃ t t', w.tasks[k]? = some t ∧ t.phase.isOpening = true ∧ w'.tasks[k]? = some t' ∧
    t'.phase = .gone .finished false

/-! ## Nothing is left -/

/-- When the queue says that nothing is left, nothing is outstanding. -/
theorem Ledger.outstanding_eq_nil (h : w.Ledger d pieces) {suits : PieceSpec → Bool}
    {queue : WorkQueue} (hclaim : w.queue.claim suits = (.drained, queue)) :
    w.outstanding = [] := by
  obtain ⟨-, hidle, -⟩ := WorkQueue.claim_idle hclaim (by simp)
  obtain ⟨hpending, hflight⟩ := WorkQueue.idle_eq_drained.1 hidle.symm
  have hheld : w.held = [] := List.eq_nil_of_length_eq_zero (h.count ▸ hflight)
  simp only [outstanding]
  rw [hpending, hheld, List.append_nil]

/-- When the queue says that no piece will suit, nothing is held and nothing outstanding suits. -/
theorem Ledger.not_suits_of_noMatch (h : w.Ledger d pieces) {suits : PieceSpec → Bool}
    {queue : WorkQueue} (hclaim : w.queue.claim suits = (.noMatch, queue)) :
    w.queue.inFlight = 0 ∧ ∀ spec ∈ w.outstanding, suits spec = false := by
  obtain ⟨-, hidle, hnone⟩ := WorkQueue.claim_idle hclaim (by simp)
  have hflight := WorkQueue.inFlight_of_idle_eq_noMatch hidle.symm
  have hheld : w.held = [] := List.eq_nil_of_length_eq_zero (h.count ▸ hflight)
  refine ⟨hflight, fun spec hspec => hnone spec ?_⟩
  simp only [outstanding] at hspec
  rw [hheld, List.append_nil] at hspec
  exact hspec

/-- Nothing is outstanding once a task leaves because nothing is left. -/
def Dry (w : Swarm) : Prop := ∀ k s, w.Leaving k s .drained → w.outstanding = []

theorem Ledger.dry_change (hpieces : ∀ spec ∈ pieces, spec.index.toNat < d.pieceCount)
    (h : w.Ledger d pieces) (hdry : w.Dry) (hchange : Change w e w') : w'.Dry := by
  rintro k s ⟨t', ht', hphase'⟩
  suffices hnil : w.outstanding = [] by
    have hsub := h.outstanding_change hpieces hchange
    rw [hnil] at hsub
    exact List.subset_nil.1 hsub
  obtain ⟨t, ht, -, hfate⟩ := hchange.fate ht'
  cases hfate with
  | rested hphase => exact hdry k s ⟨t, ht, hphase ▸ hphase'⟩
  | moved he hfatal hmove =>
      rw [hphase'] at hmove
      rcases hmove.of_drained with hphase | ⟨queue, hclaim⟩
      · exact hdry k s ⟨t, ht, hphase⟩
      · exact h.outstanding_eq_nil hclaim
  | stopped hfatal hphase =>
      rw [hphase] at hphase'
      cases hphase'
  | joined _ hphase =>
      rw [hphase] at hphase'
      cases hphase'

/-- A task that leaves because its peer has nothing to offer leaves nothing outstanding that its
peer has. -/
theorem Ledger.not_offered (h : w.Ledger d pieces) (hstep : (w.step e).Ledger d pieces)
    (hsub : (w.step e).outstanding ⊆ w.outstanding) {k : Nat} {s : Session}
    (hleaves : w.Leaves (w.step e) k s .nothingToOffer) :
    (w.step e).held = [] ∧ (w.step e).queue.inFlight = 0 ∧
      ∀ spec ∈ (w.step e).outstanding, s.hasPiece spec.index = false := by
  obtain ⟨hbefore, t', ht', hphase'⟩ := hleaves
  obtain ⟨t, ht, -, hfate⟩ := (change_step w e).fate ht'
  cases hfate with
  | rested hphase => exact absurd ⟨t, ht, hphase ▸ hphase'⟩ hbefore
  | moved he hfatal hmove =>
      rw [hphase'] at hmove
      rcases hmove.of_nothingToOffer with hphase | ⟨hshared, queue, hclaim⟩
      · exact absurd ⟨t, ht, hphase⟩ hbefore
      · obtain ⟨hflight, hnone⟩ := h.not_suits_of_noMatch hclaim
        rw [← hshared] at hflight
        refine ⟨?_, hflight, fun spec hspec => hnone spec (hsub hspec)⟩
        exact List.eq_nil_of_length_eq_zero (hstep.count ▸ hflight)
  | stopped hfatal hphase =>
      rw [hphase] at hphase'
      cases hphase'
  | joined _ hphase =>
      rw [hphase] at hphase'
      cases hphase'

/-! ## The end of a download -/

/-- Tasks are stopped, and a failure of the store is noticed, only behind a known failure. -/
def Blamed (w : Swarm) : Prop :=
  ∀ t ∈ w.tasks, (∀ joined, t.phase = .gone .cancelled joined → w.fatal.isSome = true) ∧
    ∀ e, t.phase = .gone (.storageFailed e) true → w.fatal.isSome = true

theorem Blamed.change (h : w.Blamed) (hchange : Change w e w') : w'.Blamed := by
  intro t' ht'
  obtain ⟨k, hk⟩ := List.mem_iff_getElem?.1 ht'
  obtain ⟨t, ht, -, hfate⟩ := hchange.fate hk
  obtain ⟨hcancelled, hfailed⟩ := h t (List.mem_of_getElem? ht)
  refine ⟨fun joined hphase' => ?_, fun error hphase' => ?_⟩
  · cases hfate with
    | rested hphase => exact hchange.fatal_isSome (hcancelled joined (hphase ▸ hphase'))
    | moved he hfatal hmove =>
        rw [hphase'] at hmove
        rcases hmove.of_gone with ⟨hphase, -⟩ | ⟨-, ⟨-, hend⟩ | ⟨s, d, -, hend⟩⟩
        · exact hchange.fatal_isSome (hcancelled joined hphase)
        · cases hend
        · cases d <;> cases hend
    | stopped hfatal hphase => exact hchange.fatal_isSome hfatal
    | joined hphase hphase'' hnoted =>
        rw [hphase''] at hphase'
        cases hphase'
        exact hchange.fatal_isSome (hcancelled false hphase)
  · cases hfate with
    | rested hphase => exact hchange.fatal_isSome (hfailed error (hphase ▸ hphase'))
    | moved he hfatal hmove =>
        rw [hphase'] at hmove
        rcases hmove.of_gone with ⟨hphase, -⟩ | ⟨hjoined, -⟩
        · exact hchange.fatal_isSome (hfailed error hphase)
        · cases hjoined
    | stopped hfatal hphase =>
        rw [hphase] at hphase'
        cases hphase'
    | joined hphase hphase'' hnoted =>
        rw [hphase''] at hphase'
        cases hphase'
        rw [hnoted]
        rfl

/-- A download that is over without a failure stands still, and its result says whether every piece
is complete. -/
def Concluded (w : Swarm) : Prop :=
  ∀ full, w.outcome = some (.ok full) →
    (∀ t ∈ w.tasks, t.phase = .gone .finished true) ∧
      full = (w.completed == w.descriptor.pieceCount)

theorem allJoined_iff (w : Swarm) :
    w.allJoined = true ↔ ∀ t ∈ w.tasks, ∃ result, t.phase = .gone result true := by
  simp only [allJoined]
  rw [List.all_eq_true]
  refine forall_congr' fun t => forall_congr' fun ht => ?_
  split
  next result joined hphase => simp [hphase]
  next hother =>
    refine ⟨nofun, ?_⟩
    rintro ⟨result, hphase⟩
    exact absurd hphase (hother result true)

theorem Concluded.finish (hblamed : w.Blamed) (hjoined : w.allJoined = true)
    (fault : Option Fault) : (w.finish fault).Concluded := by
  intro full hfull
  unfold Swarm.finish closeStore at hfull
  dsimp only at hfull
  split at hfull
  next => cases hfull
  next => cases hfull
  next hfatal hclosed =>
    cases hfull
    refine ⟨fun t ht => ?_, rfl⟩
    obtain ⟨result, hphase⟩ := w.allJoined_iff.1 hjoined t ht
    obtain ⟨hcancelled, hfailed⟩ := hblamed t ht
    rw [hfatal] at hcancelled hfailed
    cases result with
    | finished => exact hphase
    | cancelled => cases hcancelled true hphase
    | storageFailed e => cases hfailed e hphase

/-- Nothing moves behind the end. -/
theorem Concluded.change (h : w.Concluded) (hblamed : w.Blamed) (hchange : Change w e w') :
    w'.Concluded := by
  cases hchange with
  | nothing => exact h
  | heard ht hrecord hphase =>
      intro full hfull
      obtain ⟨hgone, hcount⟩ := h full hfull
      refine ⟨fun u hu => ?_, hcount⟩
      rcases List.mem_or_eq_of_mem_set hu with hu | rfl
      · exact hgone u hu
      · rw [hphase]
        exact hgone _ (List.mem_of_getElem? ht)
  | moved he ht hfatal hrecord hmove =>
      intro full hfull
      obtain ⟨hgone, hcount⟩ := h full hfull
      rw [hgone _ (List.mem_of_getElem? ht)] at hmove
      obtain ⟨rfl, hphase⟩ := hmove.from_gone
      refine ⟨fun u hu => ?_, hcount⟩
      rcases List.mem_or_eq_of_mem_set hu with hu | rfl
      · exact hgone u hu
      · exact hphase
  | stopped ht hfatal hrecord hlive hphase =>
      intro full hfull
      exact absurd ((h full hfull).1 _ (List.mem_of_getElem? ht)) (hlive _ _)
  | joined ht hphase hrecord hphase' =>
      intro full hfull
      have hgone := (h full hfull).1 _ (List.mem_of_getElem? ht)
      rw [hgone] at hphase
      cases hphase
  | finished he htasks hjoined houtcome => exact .finish hblamed hjoined _

/-! ## The whole download -/

/-- The books are in order, and no task has left or ended out of turn. -/
structure Accounted (d : Descriptor) (pieces : List PieceSpec) (w : Swarm) : Prop where
  ledger : w.Ledger d pieces
  dry : w.Dry
  blamed : w.Blamed
  concluded : w.Concluded

theorem Accounted.change (hpieces : ∀ spec ∈ pieces, spec.index.toNat < d.pieceCount)
    (h : w.Accounted d pieces) (hchange : Change w e w') : w'.Accounted d pieces :=
  ⟨h.ledger.change hpieces hchange, h.ledger.dry_change hpieces h.dry hchange,
    h.blamed.change hchange, h.concluded.change h.blamed hchange⟩

theorem Accounted.run (hpieces : ∀ spec ∈ pieces, spec.index.toNat < d.pieceCount)
    (h : w.Accounted d pieces) (events : List Event) : (w.run events).Accounted d pieces :=
  run_induction h (fun _ _ _ hchange hv => hv.change hpieces hchange) events

theorem accounted_begin {s : Store} (hsize : s.completed.bytes.length = byteLength d.pieceCount)
    (t : FileTree) (peers : PeerSet) (settings : Settings) (localId : PeerId) (now : Nat)
    (fault : Option Fault) :
    ((seed d s t peers settings localId).begin_ now fault).Accounted d (missing d s) := by
  obtain ⟨hqueue, hcompleted, hdescriptor, -, -, htasks⟩ :=
    begin_spec (w := seed d s t peers settings localId) rfl now fault
  refine ⟨ledger_begin hsize t peers settings localId now fault, ?_, ?_, ?_⟩
  · rintro k session ⟨task, htask, hphase⟩
    obtain ⟨deadline, hdialing⟩ := htasks task (List.mem_of_getElem? htask)
    rw [hdialing] at hphase
    cases hphase
  · intro task htask
    obtain ⟨deadline, hdialing⟩ := htasks task htask
    rw [hdialing]
    exact ⟨nofun, nofun⟩
  · intro full hfull
    obtain ⟨rfl, hdrained, hnone⟩ := begin_outcome rfl hfull
    obtain ⟨hpending, -⟩ := WorkQueue.isDrained_iff.1 hdrained
    refine ⟨?_, ?_⟩
    · rw [hnone]
      intro task htask
      cases htask
    · rw [hcompleted, hdescriptor]
      have : (seed d s t peers settings localId).completed = d.pieceCount := by
        show d.pieceCount - (seed d s t peers settings localId).queue.pending.length = d.pieceCount
        rw [hpending]
        rfl
      rw [this]
      exact (beq_self_eq_true d.pieceCount).symm

/-- Nothing is held in the end. -/
theorem Accounted.held_of_outcome (h : w.Accounted d pieces) {full : Bool}
    (hend : w.outcome = some (.ok full)) : w.held = [] := by
  obtain ⟨hgone, -⟩ := h.concluded full hend
  refine List.filterMap_eq_nil_iff.2 fun t ht => ?_
  rw [Task.claim?_eq, hgone t ht]
  rfl

/-- A download says that it is full exactly when nothing is outstanding. -/
theorem Accounted.full_iff (h : w.Accounted d pieces) {full : Bool}
    (hend : w.outcome = some (.ok full)) : full = true ↔ w.outstanding = [] := by
  obtain ⟨-, hfull⟩ := h.concluded full hend
  have htally := h.ledger.tally
  rw [hfull, h.ledger.descriptor, beq_iff_eq, ← List.length_eq_zero_iff]
  omega

/-- A task whose end shows no failure of the store once left its session, or never had one. -/
theorem exists_departure {events : List Event} {k : Nat} {t t' : Task} {deadline : Nat}
    (ht : w.tasks[k]? = some t) (hphase : t.phase = .dialing deadline)
    (ht' : (w.run events).tasks[k]? = some t') {joined : Bool}
    (hphase' : t'.phase = .gone .finished joined) :
    ∃ before e after, events = before ++ e :: after ∧
      ((w.run before).Loses ((w.run before).step e) k ∨
        ∃ s reason, reason.taskEnd = .finished ∧
          (w.run before).Leaves ((w.run before).step e) k s reason) := by
  have hdialing : ¬∃ u joined, w.tasks[k]? = some u ∧ u.phase = .gone .finished joined := by
    rintro ⟨u, joined, hu, hgone⟩
    rw [ht] at hu
    cases hu
    rw [hphase] at hgone
    cases hgone
  obtain ⟨before, e, after, rfl, hbefore, u', joined', hu', hgone⟩ :=
    exists_step (P := fun v => ∃ u joined, v.tasks[k]? = some u ∧ u.phase = .gone .finished joined)
      hdialing ⟨t', joined, ht', hphase'⟩
  obtain ⟨u, hu, -, hfate⟩ := (change_step (w.run before) e).fate hu'
  cases hfate with
  | rested hsame => exact absurd ⟨u, joined', hu, hsame ▸ hgone⟩ hbefore
  | stopped hfatal hstopped =>
      rw [hstopped] at hgone
      cases hgone
  | joined hended hnoticed =>
      rw [hnoticed] at hgone
      cases hgone
      exact absurd ⟨u, false, hu, hended⟩ hbefore
  | moved he hfatal hmove =>
      rw [hgone] at hmove
      rcases hmove.of_gone with ⟨hended, -⟩ | ⟨rfl, ⟨hopening, -⟩ | ⟨s, reason, hleaving, hend⟩⟩
      · exact absurd ⟨u, joined', hu, hended⟩ hbefore
      · exact ⟨before, e, after, rfl, .inl ⟨u, u', hu, hopening, hu', hgone⟩⟩
      · -- the session was left in an earlier step
        have hnot : ¬w.Leaving k s reason := by
          rintro ⟨v, hv, hleft⟩
          rw [ht] at hv
          cases hv
          rw [hphase] at hleft
          cases hleft
        obtain ⟨earlier, e', between, rfl, hstays, hleaves⟩ :=
          exists_step (P := fun v => v.Leaving k s reason) hnot ⟨u, hu, hleaving⟩
        refine ⟨earlier, e', between ++ e :: after, ?_,
          .inr ⟨s, reason, hend.symm, hstays, hleaves⟩⟩
        rw [List.append_assoc, List.cons_append]

namespace Accounted

variable (hpieces : ∀ spec ∈ pieces, spec.index.toNat < d.pieceCount) (h : w.Accounted d pieces)
include hpieces h

theorem outstanding_append (before after : List Event) :
    (w.run (before ++ after)).outstanding ⊆ (w.run before).outstanding := by
  rw [run_append]
  exact (h.run hpieces before).ledger.outstanding_run hpieces after

/-- Nothing is outstanding any more behind a task that leaves because nothing is left. -/
theorem outstanding_of_leaving {before : List Event} {k : Nat} {s : Session}
    (hleaving : (w.run before).Leaving k s .drained) (after : List Event) :
    (w.run (before ++ after)).outstanding = [] := by
  have hsub := h.outstanding_append hpieces before after
  rw [(h.run hpieces before).dry k s hleaving] at hsub
  exact List.subset_nil.1 hsub

/-- Of what is outstanding behind a task that leaves because its peer has nothing to offer, its peer
has nothing. -/
theorem not_offered {before : List Event} {e : Event} {k : Nat} {s : Session}
    (hleaves : (w.run before).Leaves (w.run (before ++ [e])) k s .nothingToOffer)
    (after : List Event) :
    (w.run (before ++ [e])).held = [] ∧ (w.run (before ++ [e])).queue.inFlight = 0 ∧
      ∀ spec ∈ (w.run (before ++ e :: after)).outstanding, s.hasPiece spec.index = false := by
  have hledger := (h.run hpieces (before ++ [e])).ledger
  have hsub := h.outstanding_append hpieces before [e]
  have hafter := h.outstanding_append hpieces (before ++ [e]) after
  rw [List.append_assoc, List.singleton_append] at hafter
  rw [run_concat] at hleaves hledger hsub hafter ⊢
  obtain ⟨hheld, hflight, hnone⟩ := (h.run hpieces before).ledger.not_offered hledger hsub hleaves
  exact ⟨hheld, hflight, fun spec hspec => hnone spec (hafter hspec)⟩

/-- When the download ends with a piece missing, each task lost its peer or left it, and left it
only behind a failure or without the piece. -/
theorem exists_reason {k : Nat} {t : Task} {deadline : Nat} (ht : w.tasks[k]? = some t)
    (hdialing : t.phase = .dialing deadline) {events : List Event}
    (hend : (w.run events).outcome = some (.ok false)) {spec : PieceSpec}
    (hspec : spec ∈ (w.run events).outstanding) :
    ∃ before e after, events = before ++ e :: after ∧
      ((w.run before).Loses (w.run (before ++ [e])) k ∨
        (∃ s error, (w.run before).Leaves (w.run (before ++ [e])) k s (.failed error)) ∨
        ∃ s, s.hasPiece spec.index = false ∧
          (w.run before).Leaves (w.run (before ++ [e])) k s .nothingToOffer) := by
  obtain ⟨t', ht', -⟩ := task_run ht events
  have hgone := ((h.run hpieces events).concluded false hend).1 t' (List.mem_of_getElem? ht')
  obtain ⟨before, e, after, rfl, hloses | ⟨s, reason, hreason, hleaves⟩⟩ :=
    exists_departure ht hdialing ht' hgone
  · exact ⟨before, e, after, rfl, .inl ((w.run_concat before e).symm ▸ hloses)⟩
  · rw [← run_concat] at hleaves
    refine ⟨before, e, after, rfl, ?_⟩
    cases reason with
    | drained =>
        have hnil := h.outstanding_of_leaving hpieces hleaves.2 after
        rw [List.append_assoc, List.singleton_append] at hnil
        rw [hnil] at hspec
        cases hspec
    | nothingToOffer =>
        exact .inr (.inr ⟨s, (h.not_offered hpieces hleaves after).2.2 spec hspec, hleaves⟩)
    | failed error => exact .inr (.inl ⟨s, error, hleaves⟩)
    | storageFailed error => cases hreason

end Accounted

/-- In a download that ends with pieces missing, every peer had a task. -/
theorem exists_task_of_peer {s : Store} {t : FileTree} {peers : PeerSet} {settings : Settings}
    {localId : PeerId} {now : Nat} {fault : Option Fault} {events : List Event}
    (hend : (((seed d s t peers settings localId).begin_ now fault).run events).outcome =
      some (.ok false))
    {k : Nat} {r : PeerRecord} (hr : peers.members[k]? = some r) :
    ∃ task deadline, ((seed d s t peers settings localId).begin_ now fault).tasks[k]? = some task ∧
      task.record = r ∧ task.phase = .dialing deadline := by
  have hnone : ((seed d s t peers settings localId).begin_ now fault).outcome = none := by
    cases hstarted : ((seed d s t peers settings localId).begin_ now fault).outcome with
    | none => rfl
    | some result =>
        have hresult := outcome_run hstarted events
        rw [hend] at hresult
        cases hresult
        cases (begin_outcome rfl hstarted).1
  refine ⟨Task.start r (now + settings.connectTimeout), _, ?_, rfl, rfl⟩
  rw [begin_tasks hnone, List.getElem?_map]
  exact congrArg (Option.map _) hr

/-- No piece is stranded, whatever the peers and the files do.  A piece that is not outstanding is
in the store.  Once a task leaves because nothing is left, nothing is outstanding any more.  When a
task leaves because its peer has nothing to offer, no task holds a piece, and of what is outstanding
then or later its peer has nothing.  So if the download ends with pieces missing, each peer failed
or left without having them. -/
theorem no_piece_stranded {d : Descriptor} {s : Store} {tree tree' : FileTree}
    {root name : List Char} (hcheck : d.check = .ok ())
    (hopen : Store.open_ tree root d name = (.ok s, tree')) (peers : PeerSet) (settings : Settings)
    (localId : PeerId) (now : Nat) (fault : Option Fault) :
    let start := (seed d s tree' peers settings localId).begin_ now fault
    (∀ events,
      (∀ spec ∈ missing d s, spec ∈ (start.run events).outstanding ∨
        (start.run events).store.hasPiece spec.index = true) ∧
      (d.pieceCount < UInt32.size → ∀ i : PieceIndex, i.toNat < d.pieceCount →
        (start.run events).store.hasPiece i = false →
        ∃ spec ∈ (start.run events).outstanding, spec.index = i)) ∧
    (∀ before after k session, (start.run before).Leaving k session .drained →
      (start.run (before ++ after)).outstanding = [] ∧
      ∀ spec ∈ missing d s, (start.run (before ++ after)).store.hasPiece spec.index = true) ∧
    (∀ before e after k session,
      (start.run before).Leaves (start.run (before ++ [e])) k session .nothingToOffer →
      (start.run (before ++ [e])).held = [] ∧ (start.run (before ++ [e])).queue.inFlight = 0 ∧
      ∀ spec ∈ (start.run (before ++ e :: after)).outstanding,
        session.hasPiece spec.index = false) ∧
    ∀ events, (start.run events).outcome = some (.ok false) →
      ∀ spec ∈ (start.run events).outstanding, ∀ k r, peers.members[k]? = some r →
        (∃ t, (start.run events).tasks[k]? = some t ∧ t.record = r) ∧
        ∃ before e after, events = before ++ e :: after ∧
          ((start.run before).Loses (start.run (before ++ [e])) k ∨
            (∃ session error,
              (start.run before).Leaves (start.run (before ++ [e])) k session (.failed error)) ∨
            ∃ session, session.hasPiece spec.index = false ∧
              (start.run before).Leaves (start.run (before ++ [e])) k session .nothingToOffer) := by
  intro start
  have hpieces : ∀ spec ∈ missing d s, spec.index.toNat < d.pieceCount :=
    fun spec hspec => index_lt_of_mem_missing hspec
  have hstart : start.Accounted d (missing d s) :=
    accounted_begin (Store.size_open hopen) tree' peers settings localId now fault
  have hsettled := fun events => (hstart.run hpieces events).ledger.settled
  refine ⟨fun events => ⟨hsettled events, ?_⟩, ?_, ?_, ?_⟩
  · intro hcount i hi hbit
    exact (hstart.run hpieces events).ledger.exists_outstanding
      (grows_begin_run d s tree' peers settings localId now fault events)
      (Descriptor.sound_of_check hcheck) hcount hi hbit
  · intro before after k session hleaving
    have hnil := hstart.outstanding_of_leaving hpieces hleaving after
    refine ⟨hnil, fun spec hspec => ?_⟩
    rcases hsettled (before ++ after) spec hspec with hout | hset
    · rw [hnil] at hout
      cases hout
    · exact hset
  · intro before e after k session hleaves
    exact hstart.not_offered hpieces hleaves after
  · intro events hend spec hspec k r hr
    obtain ⟨t, deadline, ht, hrecord, hdialing⟩ := exists_task_of_peer hend hr
    obtain ⟨t', ht', hrecord'⟩ := task_run ht events
    exact ⟨⟨t', ht', hrecord'.trans hrecord⟩,
      hstart.exists_reason hpieces ht hdialing hend hspec⟩

/-- Why the task with a number leaves its session, if it does. -/
def departure? (w : Swarm) (k : Nat) : Option Departure :=
  match w.tasks[k]? with
  | none => none
  | some t =>
    match t.phase with
    | .inSession _ (.leaving reason) => some reason
    | _ => none

theorem departure?_eq_some {k : Nat} {reason : Departure} :
    w.departure? k = some reason ↔ ∃ s, w.Leaving k s reason := by
  simp only [departure?, Leaving]
  split
  next hnone => simp [hnone]
  next t ht =>
    split
    next s leaving hphase => simp [ht, hphase]
    next hother =>
      refine ⟨nofun, ?_⟩
      rintro ⟨s, u, hu, hphase⟩
      rw [ht] at hu
      cases hu
      exact absurd hphase (hother s reason)

theorem exists_leaves {k : Nat} {reason : Departure} (hstays : w.departure? k = none)
    (hleaves : w'.departure? k = some reason) : ∃ s, w.Leaves w' k s reason := by
  obtain ⟨s, hleaving⟩ := departure?_eq_some.1 hleaves
  refine ⟨s, fun hbefore => ?_, hleaving⟩
  rw [departure?_eq_some.2 ⟨s, hbefore⟩] at hstays
  cases hstays

/-- Two peers of a download. -/
def twoPeers : PeerSet :=
  ⟨[⟨⟨.short ⟨127, 0, 0, 1⟩, 1⟩, none⟩, ⟨⟨.short ⟨127, 0, 0, 1⟩, 2⟩, none⟩]⟩

/-- A peer is reached and sends its greeting, its bitmap and a content for the first piece.  Its
task goes on this often. -/
def served (k : Nat) (bits content : Bytes) (turns : Nat) : List Event :=
  let sent := (Handshake.ours ⟨.zero 20⟩ ⟨.zero 20⟩).encode ++ Frame.encode (.bitfield bits) ++
    Frame.encode .unchoke ++ Frame.encode (.piece 0 0 content)
  [.reached k 0 none, .arrived k sent] ++ List.replicate turns (.proceeded k 0 none)

/-- One peer cannot be reached and another one does not answer in time.  Then one peer has nothing
and another one has the piece. -/
theorem no_piece_stranded_deaf_or_serving_peers :
    let d : Descriptor := ⟨⟨.zero 20⟩, 1, 1, [Sha1.digest [97]], [⟨"a", 1⟩]⟩
    let deaf : List Event := [.refused 0, .clock 1 3000, .joined 1, .joined 0, .closed none]
    let idle := served 0 [0] [97] 2
    let serving := served 1 [0x80] [97] 19
    d.check = .ok () ∧ ∃ s tree, Store.open_ (.empty []) ['t'] d ['r'] = (.ok s, tree) ∧
      let start := (seed d s tree twoPeers .standard ⟨.zero 20⟩).begin_ 0 none
      ((start.run deaf).outcome = some (.ok false) ∧
        ∀ spec ∈ (start.run deaf).outstanding, ∀ k r, twoPeers.members[k]? = some r →
          ∃ before e after, deaf = before ++ e :: after ∧
            ((start.run before).Loses (start.run (before ++ [e])) k ∨
              (∃ session error,
                (start.run before).Leaves (start.run (before ++ [e])) k session (.failed error)) ∨
              ∃ session, session.hasPiece spec.index = false ∧
                (start.run before).Leaves (start.run (before ++ [e])) k session .nothingToOffer)) ∧
      ((start.run (idle ++ [.proceeded 0 0 none])).outstanding ≠ [] ∧
        ∃ session, (start.run idle).Leaves (start.run (idle ++ [.proceeded 0 0 none])) 0 session
            .nothingToOffer ∧
          (start.run (idle ++ [.proceeded 0 0 none])).held = [] ∧
          (start.run (idle ++ [.proceeded 0 0 none])).queue.inFlight = 0 ∧
          ∀ spec ∈ (start.run (idle ++ [.proceeded 0 0 none])).outstanding,
            session.hasPiece spec.index = false) ∧
      missing d s ≠ [] ∧ ∃ session, (start.run serving).Leaving 1 session .drained ∧
        (start.run (serving ++ [.proceeded 1 0 none, .joined 1])).outstanding = [] ∧
        ∀ spec ∈ missing d s,
          (start.run (serving ++ [.proceeded 1 0 none, .joined 1])).store.hasPiece spec.index =
            true := by
  have hopen : Store.open_ (.empty []) ['t'] ⟨⟨.zero 20⟩, 1, 1, [Sha1.digest [97]], [⟨"a", 1⟩]⟩
    ['r'] = (.ok _, _) := rfl
  obtain ⟨-, hdrained, hidle, hend⟩ := no_piece_stranded rfl hopen twoPeers .standard ⟨.zero 20⟩
    0 none
  refine ⟨rfl, _, _, hopen, ⟨rfl, fun spec hspec k r hr => ?_⟩, ⟨by decide +kernel, ?_⟩,
    by decide, ?_⟩
  · exact (hend _ rfl spec hspec k r hr).2
  · refine (exists_leaves ?_ ?_).imp fun session hleaves =>
      ⟨hleaves, hidle _ _ [] _ session hleaves⟩
    · decide +kernel
    · decide +kernel
  · refine (departure?_eq_some.1 ?_).imp fun session hleaving =>
      ⟨hleaving, hdrained _ _ _ session hleaving⟩
    decide +kernel

end Swarm

end Torrent
