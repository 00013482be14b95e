import Torrent.Proofs.Queue.Conservation
import Torrent.Proofs.Store.Growth
import Torrent.Proofs.Swarm.Move
import Torrent.Proofs.Swarm.Seed

/-!
# The books of a download

A piece that was queued in the beginning waits, or a task holds it, or it is
complete and the store has it.  `Swarm.Ledger` says so, together with the numbers
that the download keeps of it, and every change of a download keeps it
(`Swarm.Ledger.run`).

`Booking` is all that matters of a move for the books.
-/

namespace Torrent

open scoped List

theorem filterMap_cons_eq {α β : Type} (f : α → Option β) (a : α) (l : List α) :
    (a :: l).filterMap f = (f a).toList ++ l.filterMap f := by
  rw [List.filterMap_cons]
  cases f a <;> rfl

/-- One entry of a list replaced: what is picked from the list changes by what is picked from the
entry. -/
theorem perm_filterMap_set {α β : Type} {l : List α} {k : Nat} {a b : α} {f : α → Option β}
    (h : l[k]? = some a) :
    ((f a).toList ++ (l.set k b).filterMap f).Perm ((f b).toList ++ l.filterMap f) := by
  induction l generalizing k with
  | nil => cases h
  | cons c l ih =>
      cases k with
      | zero =>
          cases h
          rw [List.set_cons_zero, filterMap_cons_eq, filterMap_cons_eq]
          exact List.perm_append_comm_assoc _ _ _
      | succ k =>
          rw [List.set_cons_succ, filterMap_cons_eq, filterMap_cons_eq]
          calc (f a).toList ++ ((f c).toList ++ (l.set k b).filterMap f)
              _ ~ (f c).toList ++ ((f a).toList ++ (l.set k b).filterMap f) :=
                List.perm_append_comm_assoc _ _ _
              _ ~ (f c).toList ++ ((f b).toList ++ l.filterMap f) := (ih h).append_left _
              _ ~ (f b).toList ++ ((f c).toList ++ l.filterMap f) :=
                List.perm_append_comm_assoc _ _ _

/-! ## Bookings -/

/-- What a step of a task in a phase means for the books, when the task afterwards holds this
claim. -/
inductive Booking (w : Shared) (p : Phase) (w' : Shared) (claim : Option PieceSpec) : Prop
  | kept (hqueue : w'.queue = w.queue) (hcompleted : w'.completed = w.completed)
    (hclaim : claim = p.claim?)
  | taken {spec : PieceSpec} (hp : p.claim? = none) (hclaim : claim = some spec)
    (hpending : w.queue.pending.Perm (spec :: w'.queue.pending))
    (hflight : w'.queue.inFlight = w.queue.inFlight + 1) (hcompleted : w'.completed = w.completed)
  | returned {spec : PieceSpec} (hp : p.claim? = some spec) (hclaim : claim = none)
    (hqueue : w'.queue = w.queue.giveBack spec) (hcompleted : w'.completed = w.completed)
  | settled {s : Session} {spec : PieceSpec}
    (hp : p = .inSession s (.storing spec (.finished (.ok ()))))
    (hclaim : claim = none) (hqueue : w'.queue = w.queue.complete spec)
    (hcompleted : w'.completed = w.completed + 1)

theorem Move.booking {r : PeerRecord} {fault : Option Fault} {w w' : Shared} {p p' : Phase}
    (h : Move r fault w p w' p') : Booking w p w' p'.claim? := by
  cases h with
  | reach hp hp' =>
      refine .kept rfl rfl ?_
      rw [Phase.claim?_of_isOpening hp, Phase.claim?_of_isOpening hp']
  | opened s hp => exact .kept rfl rfl (Phase.claim?_of_isOpening hp).symm
  | lost hp => exact .kept rfl rfl (Phase.claim?_of_isOpening hp).symm
  | claimed left hclaim =>
      obtain ⟨-, hpending, hflight⟩ := WorkQueue.claim_piece hclaim
      exact .taken rfl rfl hpending hflight rfl
  | pursued hspec hspec' =>
      refine .kept rfl rfl ?_
      exact (Work.claim?_of_pursued? hspec').trans (Work.claim?_of_pursued? hspec).symm
  | completed s spec => exact .settled rfl rfl rfl rfl
  | refused s spec e => exact .returned rfl rfl rfl rfl
  | failed e hspec => exact .returned (Work.claim?_of_pursued? hspec) rfl rfl rfl
  | _ => exact .kept rfl rfl rfl

/-- A store only grows. -/
theorem Move.grows {r : PeerRecord} {fault : Option Fault} {w w' : Shared} {p p' : Phase}
    (h : Move r fault w p w' p') : w.store.Grows w'.store := by
  cases h with
  | read hstep => exact Reading.step_grows hstep
  | wrote hleft hstep => exact (Writing.step_effect hstep).grows
  | _ => exact .refl _

theorem Move.descriptor_eq {r : PeerRecord} {fault : Option Fault} {w w' : Shared} {p p' : Phase}
    (h : Move r fault w p w' p') : w'.descriptor = w.descriptor := by
  cases h <;> rfl

/-- A task that stores a piece stores the one it holds. -/
def Phase.Tracked (s : Store) : Phase → Prop
  | .inSession _ (.storing spec writing) => writing.Tracks spec.index s
  | _ => True

theorem Phase.Tracked.grows {s s' : Store} {p : Phase} (h : p.Tracked s) (hs : s.Grows s') :
    p.Tracked s' := by
  simp only [Phase.Tracked] at h ⊢
  split
  next spec writing => exact Writing.Tracks.grows h hs
  next => trivial

theorem Move.tracked {r : PeerRecord} {fault : Option Fault} {w w' : Shared} {p p' : Phase}
    (h : Move r fault w p w' p') (hp : p.Tracked w.store)
    (hbound : ∀ spec, p.claim? = some spec →
      spec.index.toNat / 8 < w.store.completed.bytes.length) :
    p'.Tracked w'.store := by
  cases h with
  | stay => exact hp
  | reach hp hp' =>
      cases p' with
      | inSession s work => cases hp'
      | _ => trivial
  | pursued hspec hspec' =>
      next work' spec =>
        cases work' with
        | storing spec writing => cases hspec'
        | _ => trivial
  | fetched => exact Writing.tracks_write _ _ _
  | wrote hleft hstep =>
      exact Writing.Tracks.step hp (fun _ => hbound _ rfl) (Writing.step_effect hstep)
  | _ => trivial

namespace Swarm

/-! ## Turns -/

/-- A task took its turn: what it did is booked, and the others stand where they stood. -/
structure Turn (w w' : Swarm) (k : Nat) (t t' : Task) : Prop where
  before : w.tasks[k]? = some t
  after : w'.tasks = w.tasks.set k t'
  record : t'.record = t.record
  descriptor : w'.descriptor = w.descriptor
  booking : Booking w.toShared t.phase w'.toShared t'.phase.claim?
  grows : w.store.Grows w'.store

theorem finish_eq (w : Swarm) (fault : Option Fault) :
    ∃ outcome, w.finish fault = { w with store := w.store.close, outcome := outcome } :=
  ⟨_, rfl⟩

theorem surrender_grows (p : Phase) (s : Store) : s.Grows (p.surrender s) := by
  simp only [Phase.surrender]
  split
  next writing => exact writing.giveUp_grows s
  next => exact .refl s

/-- A change is the turn of one task, which goes on storing the piece it holds, or the download is
over. -/
theorem Change.turn {w w' : Swarm} {e : Event} (h : Change w e w')
    (htracked : ∀ t ∈ w.tasks, t.phase.Tracked w.store)
    (hbound : ∀ t ∈ w.tasks, ∀ spec, t.phase.claim? = some spec →
      spec.index.toNat / 8 < w.store.completed.bytes.length) :
    w' = w ∨ (∃ k t t', Turn w w' k t t' ∧ t'.phase.Tracked w'.store) ∨
      ∃ fault, w' = w.finish fault := by
  cases h with
  | nothing => exact .inl rfl
  | @heard k t t' ht hrecord hphase =>
      refine .inr (.inl ⟨k, t, t', ⟨ht, rfl, hrecord, rfl, .kept rfl rfl ?_, .refl _⟩, ?_⟩)
      · rw [hphase]
      · rw [hphase]
        exact htracked t (List.mem_of_getElem? ht)
  | @moved k t t' shared he ht hfatal hrecord hmove =>
      have hmem := List.mem_of_getElem? ht
      exact .inr (.inl ⟨k, t, t',
        ⟨ht, rfl, hrecord, hmove.descriptor_eq, hmove.booking, hmove.grows⟩,
        hmove.tracked (htracked t hmem) (hbound t hmem)⟩)
  | @stopped k t t' ht hfatal hrecord hlive hphase =>
      refine .inr (.inl ⟨k, t, t', ⟨ht, rfl, hrecord, ?_, ?_, ?_⟩, ?_⟩)
      · cases t.phase.claim? <;> rfl
      · rw [hphase]
        cases hclaim : t.phase.claim? with
        | none => exact .kept rfl rfl hclaim.symm
        | some spec => exact .returned hclaim rfl rfl rfl
      · cases t.phase.claim? <;> exact surrender_grows _ _
      · rw [hphase]
        trivial
  | @joined k t t' result ht hphase hrecord hphase' =>
      refine .inr (.inl ⟨k, t, t', ⟨ht, rfl, hrecord, rfl, .kept rfl rfl ?_, .refl _⟩, ?_⟩)
      · rw [hphase, hphase']
        rfl
      · rw [hphase']
        trivial
  | finished he htasks hjoined houtcome => exact .inr (.inr ⟨_, rfl⟩)

/-! ## What is outstanding -/

/-- The pieces that the tasks hold. -/
def held (w : Swarm) : List PieceSpec := w.tasks.filterMap Task.claim?

/-- The pieces that wait or are held. -/
def outstanding (w : Swarm) : List PieceSpec := w.queue.pending ++ w.held

namespace Turn

variable {w w' : Swarm} {k : Nat} {t t' : Task}

theorem held_perm (h : Turn w w' k t t') :
    t.phase.claim?.toList ++ w'.held ~ t'.phase.claim?.toList ++ w.held := by
  have hset := perm_filterMap_set (b := t') (f := Task.claim?) h.before
  rw [Task.claim?_eq, Task.claim?_eq] at hset
  simp only [held]
  rw [h.after]
  exact hset

/-- The number of held pieces is counted with every turn. -/
theorem count (h : Turn w w' k t t') (hcount : w.queue.inFlight = w.held.length) :
    w'.queue.inFlight = w'.held.length := by
  have hheld := h.held_perm.length_eq
  simp only [List.length_append] at hheld
  cases h.booking with
  | kept hqueue hcompleted hclaim =>
      rw [hclaim] at hheld
      rw [hqueue, hcount]
      omega
  | taken hp hclaim hpending hflight hcompleted =>
      rw [hp, hclaim, Option.toList_none, Option.toList_some, List.length_nil,
        List.length_singleton] at hheld
      omega
  | returned hp hclaim hqueue hcompleted =>
      rw [hp, hclaim, Option.toList_none, Option.toList_some, List.length_nil,
        List.length_singleton] at hheld
      rw [hqueue, WorkQueue.inFlight_giveBack]
      omega
  | settled hp hclaim hqueue hcompleted =>
      rw [hp, hclaim] at hheld
      simp only [Phase.claim?, Work.claim?, Option.toList_none, Option.toList_some,
        List.length_nil, List.length_singleton] at hheld
      rw [hqueue, WorkQueue.inFlight_complete]
      omega

/-- A turn leaves the same pieces outstanding, or completes one of them. -/
theorem outstanding_perm (h : Turn w w' k t t') :
    (w'.outstanding ~ w.outstanding ∧ w'.completed = w.completed) ∨
      ∃ s spec, t.phase = .inSession s (.storing spec (.finished (.ok ()))) ∧
        w.outstanding ~ spec :: w'.outstanding ∧ w'.completed = w.completed + 1 := by
  have hheld := h.held_perm
  simp only [outstanding]
  cases h.booking with
  | kept hqueue hcompleted hclaim =>
      rw [hclaim] at hheld
      rw [hqueue]
      exact .inl ⟨((List.perm_append_left_iff _).1 hheld).append_left _, hcompleted⟩
  | @taken spec hp hclaim hpending hflight hcompleted =>
      rw [hp, hclaim] at hheld
      refine .inl ⟨?_, hcompleted⟩
      calc w'.queue.pending ++ w'.held
          _ ~ w'.queue.pending ++ spec :: w.held := hheld.append_left _
          _ ~ (spec :: w'.queue.pending) ++ w.held := List.perm_middle
          _ ~ w.queue.pending ++ w.held := hpending.symm.append_right _
  | @returned spec hp hclaim hqueue hcompleted =>
      rw [hp, hclaim] at hheld
      refine .inl ⟨?_, hcompleted⟩
      rw [hqueue, WorkQueue.pending_giveBack, List.append_assoc]
      exact hheld.append_left _
  | @settled s spec hp hclaim hqueue hcompleted =>
      rw [hclaim, hp] at hheld
      refine .inr ⟨s, spec, hp, ?_, hcompleted⟩
      rw [hqueue, WorkQueue.pending_complete]
      calc w.queue.pending ++ w.held
          _ ~ w.queue.pending ++ spec :: w'.held := hheld.symm.append_left _
          _ ~ spec :: (w.queue.pending ++ w'.held) := List.perm_middle

/-- No turn brings a piece back that is no longer outstanding. -/
theorem outstanding_subset (h : Turn w w' k t t') : w'.outstanding ⊆ w.outstanding := by
  rcases h.outstanding_perm with ⟨hperm, -⟩ | ⟨s, spec, -, hperm, -⟩
  · exact hperm.subset
  · exact fun x hx => hperm.symm.subset (List.mem_cons_of_mem _ hx)

end Turn

theorem Change.grows {w w' : Swarm} {e : Event} (h : Change w e w') : w.store.Grows w'.store := by
  cases h with
  | moved he ht hfatal hrecord hmove => exact hmove.grows
  | @stopped k t t' ht => cases t.phase.claim? <;> exact surrender_grows _ _
  | finished => exact w.store.close_grows
  | _ => exact .refl _

/-- The store of a download only grows. -/
theorem grows_run (w : Swarm) (events : List Event) : w.store.Grows (w.run events).store :=
  run_induction (P := fun v => w.store.Grows v.store) (.refl _)
    (fun _ _ _ hchange h => h.trans hchange.grows) events

/-! ## The ledger -/

/-- The books of a download that began with these pieces are in order. -/
structure Ledger (d : Descriptor) (pieces : List PieceSpec) (w : Swarm) : Prop where
  descriptor : w.descriptor = d
  size : w.store.completed.bytes.length = byteLength d.pieceCount
  count : w.queue.inFlight = w.held.length
  /-- No piece waits or is held twice. -/
  distinct : (w.outstanding.map PieceSpec.index).Nodup
  known : w.outstanding ⊆ pieces
  /-- A piece that is no longer outstanding is in the store. -/
  settled : ∀ spec ∈ pieces, spec ∈ w.outstanding ∨ w.store.hasPiece spec.index = true
  tally : w.completed + w.outstanding.length = d.pieceCount
  tracked : ∀ t ∈ w.tasks, t.phase.Tracked w.store

namespace Ledger

variable {d : Descriptor} {pieces : List PieceSpec} {w w' : Swarm}

theorem claim_mem_outstanding {t : Task} {spec : PieceSpec} (ht : t ∈ w.tasks)
    (hspec : t.phase.claim? = some spec) : spec ∈ w.outstanding := by
  rw [← Task.claim?_eq] at hspec
  exact List.mem_append_right _ (List.mem_filterMap.2 ⟨t, ht, hspec⟩)

theorem known_of_claim (h : w.Ledger d pieces) {t : Task} {spec : PieceSpec} (ht : t ∈ w.tasks)
    (hspec : t.phase.claim? = some spec) : spec ∈ pieces :=
  h.known (claim_mem_outstanding ht hspec)

/-- A task holds a piece of the description. -/
theorem piece?_of_claim {s : Store} (h : w.Ledger d (missing d s)) {t : Task} {spec : PieceSpec}
    (ht : t ∈ w.tasks) (hspec : t.phase.claim? = some spec) : d.piece? spec.index = some spec :=
  (mem_missing.1 (h.known_of_claim ht hspec)).2.2

/-- The bitmap has a place for every piece. -/
theorem bound (h : w.Ledger d pieces) (hpieces : ∀ spec ∈ pieces, spec.index.toNat < d.pieceCount)
    {spec : PieceSpec} (hspec : spec ∈ w.outstanding) :
    spec.index.toNat / 8 < w.store.completed.bytes.length := by
  have := hpieces spec (h.known hspec)
  rw [h.size]
  simp only [byteLength]
  omega

/-- A turn keeps the books in order if the task goes on storing the piece it holds. -/
theorem turn {k : Nat} {t t' : Task} (h : w.Ledger d pieces) (hturn : Turn w w' k t t')
    (htracked : t'.phase.Tracked w'.store) : w'.Ledger d pieces := by
  have hsettled : ∀ spec ∈ pieces, spec ∈ w'.outstanding ∨ w'.store.hasPiece spec.index = true := by
    intro spec hspec
    rcases h.settled spec hspec with hout | hbit
    · rcases hturn.outstanding_perm with ⟨hperm, -⟩ | ⟨s, done, hphase, hperm, -⟩
      · exact .inl (hperm.symm.subset hout)
      · rcases List.mem_cons.1 (hperm.subset hout) with rfl | hmem
        · have hstored := h.tracked t (List.mem_of_getElem? hturn.before)
          rw [hphase] at hstored
          exact .inr (hturn.grows.bits _ hstored)
        · exact .inl hmem
    · exact .inr (hturn.grows.bits _ hbit)
  have htasks : ∀ t ∈ w'.tasks, t.phase.Tracked w'.store := by
    intro u hu
    rw [hturn.after] at hu
    rcases List.mem_or_eq_of_mem_set hu with hu | rfl
    · exact (h.tracked u hu).grows hturn.grows
    · exact htracked
  refine ⟨hturn.descriptor.trans h.descriptor, hturn.grows.size.trans h.size,
    hturn.count h.count, ?_, fun x hx => h.known (hturn.outstanding_subset hx), hsettled, ?_,
    htasks⟩
  · rcases hturn.outstanding_perm with ⟨hperm, -⟩ | ⟨s, spec, -, hperm, -⟩
    · exact (hperm.map _).nodup_iff.2 h.distinct
    · exact (List.nodup_cons.1 ((hperm.map _).nodup_iff.1 h.distinct)).2
  · have htally := h.tally
    rcases hturn.outstanding_perm with ⟨hperm, hcompleted⟩ | ⟨s, spec, -, hperm, hcompleted⟩
    · have := hperm.length_eq
      omega
    · have := hperm.length_eq
      rw [List.length_cons] at this
      omega

theorem finish (h : w.Ledger d pieces) (fault : Option Fault) :
    (w.finish fault).Ledger d pieces := by
  obtain ⟨outcome, heq⟩ := w.finish_eq fault
  rw [heq]
  exact ⟨h.descriptor, h.size, h.count, h.distinct, h.known, h.settled, h.tally,
    fun t ht => (h.tracked t ht).grows w.store.close_grows⟩

/-- Every change keeps the books in order. -/
theorem change {e : Event} (hpieces : ∀ spec ∈ pieces, spec.index.toNat < d.pieceCount)
    (hchange : Change w e w') (h : w.Ledger d pieces) : w'.Ledger d pieces := by
  rcases hchange.turn h.tracked fun t ht spec hspec =>
    h.bound hpieces (claim_mem_outstanding ht hspec) with
      rfl | ⟨k, t, t', hturn, htracked⟩ | ⟨fault, rfl⟩
  · exact h
  · exact h.turn hturn htracked
  · exact h.finish fault

theorem run (hpieces : ∀ spec ∈ pieces, spec.index.toNat < d.pieceCount) (h : w.Ledger d pieces)
    (events : List Event) : (w.run events).Ledger d pieces :=
  run_induction h (fun _ _ _ hchange h => h.change hpieces hchange) events

/-- No change brings a piece back that is no longer outstanding. -/
theorem outstanding_change {e : Event}
    (hpieces : ∀ spec ∈ pieces, spec.index.toNat < d.pieceCount) (h : w.Ledger d pieces)
    (hchange : Change w e w') : w'.outstanding ⊆ w.outstanding := by
  intro x hx
  rcases hchange.turn h.tracked fun t ht spec hspec =>
    h.bound hpieces (claim_mem_outstanding ht hspec) with rfl | ⟨k, t, t', hturn, -⟩ | ⟨fault, rfl⟩
  · exact hx
  · exact hturn.outstanding_subset hx
  · exact hx

/-- Later, no other pieces are outstanding than now. -/
theorem outstanding_run (hpieces : ∀ spec ∈ pieces, spec.index.toNat < d.pieceCount)
    (h : w.Ledger d pieces) (events : List Event) : (w.run events).outstanding ⊆ w.outstanding := by
  have hboth : (w.run events).Ledger d pieces ∧ (w.run events).outstanding ⊆ w.outstanding := by
    refine run_induction (P := fun v => v.Ledger d pieces ∧ v.outstanding ⊆ w.outstanding)
      ⟨h, fun x hx => hx⟩ ?_ events
    rintro v e v' hchange ⟨hv, hsub⟩
    exact ⟨hv.change hpieces hchange, fun x hx => hsub (hv.outstanding_change hpieces hchange hx)⟩
  exact hboth.2

end Ledger

/-! ## The beginning -/

/-- A download that begins gives each peer a task that has not reached it. -/
theorem mem_tasks_begin {w : Swarm} (htasks : w.tasks = []) {now : Nat} {fault : Option Fault}
    {t : Task} (ht : t ∈ (w.begin_ now fault).tasks) : ∃ r deadline, t = Task.start r deadline := by
  simp only [begin_] at ht
  split at ht
  next =>
    cases fault with
    | none =>
        rw [closeStore, htasks] at ht
        cases ht
    | some fault =>
        rw [closeStore, htasks] at ht
        cases ht
  next =>
    split at ht
    next =>
      rw [htasks] at ht
      cases ht
    next =>
      obtain ⟨r, -, rfl⟩ := List.mem_map.1 ht
      exact ⟨r, _, rfl⟩

/-- A download that begins gives each peer a task that holds nothing, or closes its store. -/
theorem begin_spec {w : Swarm} (htasks : w.tasks = []) (now : Nat) (fault : Option Fault) :
    (w.begin_ now fault).queue = w.queue ∧ (w.begin_ now fault).completed = w.completed ∧
      (w.begin_ now fault).descriptor = w.descriptor ∧ (w.begin_ now fault).fatal = w.fatal ∧
      w.store.Grows (w.begin_ now fault).store ∧
      ∀ t ∈ (w.begin_ now fault).tasks, ∃ deadline, t.phase = .dialing deadline := by
  have hdialing : ∀ t ∈ (w.begin_ now fault).tasks, ∃ deadline, t.phase = .dialing deadline := by
    intro t ht
    obtain ⟨r, deadline, rfl⟩ := mem_tasks_begin htasks ht
    exact ⟨deadline, rfl⟩
  simp only [begin_] at hdialing ⊢
  split at hdialing
  next hdrained =>
    rw [if_pos hdrained]
    cases fault with
    | none => exact ⟨rfl, rfl, rfl, rfl, w.store.close_grows, hdialing⟩
    | some fault => exact ⟨rfl, rfl, rfl, rfl, w.store.close_grows, hdialing⟩
  next hmissing =>
    rw [if_neg hmissing]
    split at hdialing
    next halone =>
      rw [if_pos halone]
      exact ⟨rfl, rfl, rfl, rfl, .refl _, hdialing⟩
    next hpeers =>
      rw [if_neg hpeers]
      exact ⟨rfl, rfl, rfl, rfl, .refl _, hdialing⟩

/-- A download that begins with a result has nothing to do, or its result is an error. -/
theorem begin_outcome {w : Swarm} (houtcome : w.outcome = none) {now : Nat} {fault : Option Fault}
    {full : Bool} (h : (w.begin_ now fault).outcome = some (.ok full)) :
    full = true ∧ w.queue.isDrained = true ∧ (w.begin_ now fault).tasks = w.tasks := by
  simp only [begin_] at h ⊢
  split at h
  next hdrained =>
    rw [if_pos hdrained]
    cases fault with
    | none =>
        simp only [closeStore, Option.some.injEq, Except.ok.injEq] at h
        exact ⟨h.symm, hdrained, rfl⟩
    | some fault => simp [closeStore] at h
  next =>
    split at h
    next => cases h
    next =>
      rw [houtcome] at h
      cases h

/-- A download that begins without a result has a task for each peer. -/
theorem begin_tasks {w : Swarm} {now : Nat} {fault : Option Fault}
    (h : (w.begin_ now fault).outcome = none) :
    (w.begin_ now fault).tasks =
      w.peers.members.map fun r => Task.start r (now + w.settings.connectTimeout) := by
  simp only [begin_] at h ⊢
  split at h
  next => cases fault <;> simp [closeStore] at h
  next hdrained =>
    rw [if_neg hdrained]
    split at h
    next => cases h
    next hpeers => rw [if_neg hpeers]

/-- The books of a download that begins are in order. -/
theorem ledger_begin {d : Descriptor} {s : Store}
    (hsize : s.completed.bytes.length = byteLength d.pieceCount)
    (t : FileTree) (peers : PeerSet) (settings : Settings) (localId : PeerId) (now : Nat)
    (fault : Option Fault) :
    ((seed d s t peers settings localId).begin_ now fault).Ledger d (missing d s) := by
  obtain ⟨hqueue, hcompleted, hdescriptor, -, hgrows, htasks⟩ :=
    begin_spec (w := seed d s t peers settings localId) rfl now fault
  have hheld : ((seed d s t peers settings localId).begin_ now fault).held = [] := by
    simp only [held]
    refine List.filterMap_eq_nil_iff.2 fun task htask => ?_
    obtain ⟨deadline, hphase⟩ := htasks task htask
    rw [Task.claim?_eq, hphase]
    rfl
  have hout : ((seed d s t peers settings localId).begin_ now fault).outstanding = missing d s := by
    simp only [outstanding]
    rw [hheld, hqueue, List.append_nil]
    rfl
  refine ⟨hdescriptor, hgrows.size.trans hsize, ?_, ?_, ?_, ?_, ?_, ?_⟩
  · rw [hqueue, hheld]
    rfl
  · rw [hout]
    exact missing_indices_nodup d s
  · rw [hout]
    exact List.Subset.refl _
  · intro spec hspec
    rw [hout]
    exact .inl hspec
  · rw [hcompleted, hout]
    exact Nat.sub_add_cancel (length_missing_le d s)
  · intro task htask
    obtain ⟨deadline, hphase⟩ := htasks task htask
    rw [hphase]
    trivial

/-- What the store lacks is outstanding, in every later moment of a download of fewer than
`UInt32.size` pieces. -/
theorem Ledger.exists_outstanding {d : Descriptor} {s : Store} {w : Swarm}
    (h : w.Ledger d (missing d s)) (hgrows : s.Grows w.store) (hd : d.Sound)
    (hcount : d.pieceCount < UInt32.size) {i : PieceIndex} (hi : i.toNat < d.pieceCount)
    (hbit : w.store.hasPiece i = false) : ∃ spec ∈ w.outstanding, spec.index = i := by
  have hclear : s.hasPiece i = false := by
    refine Bool.eq_false_iff.2 fun hset => ?_
    rw [hgrows.bits i hset] at hbit
    cases hbit
  obtain ⟨spec, hspec, rfl⟩ := exists_missing hd hcount hi hclear
  rcases h.settled spec hspec with hout | hset
  · exact ⟨spec, hout, rfl⟩
  · rw [hset] at hbit
    cases hbit

theorem grows_begin_run (d : Descriptor) (s : Store) (t : FileTree) (peers : PeerSet)
    (settings : Settings) (localId : PeerId) (now : Nat) (fault : Option Fault)
    (events : List Event) :
    s.Grows (((seed d s t peers settings localId).begin_ now fault).run events).store := by
  obtain ⟨-, -, -, -, hgrows, -⟩ :=
    begin_spec (w := seed d s t peers settings localId) rfl now fault
  exact hgrows.trans (grows_run _ events)

end Swarm

end Torrent
