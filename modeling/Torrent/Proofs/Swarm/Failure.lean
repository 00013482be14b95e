import Mathlib.Data.List.Induction
import Torrent.Proofs.Swarm.Sealed
import Torrent.Proofs.Swarm.Verdict

/-!
# How a download fails

A failure of the store ends a download, and a failure of a peer ends only the
session with that peer.  Neither takes the way of the other.

A failure of the store begins where the writing of a piece ends with one.  From
there the task carries it, and when the task is joined it is noticed
(`Swarm.Alarmed`).  So a download that is over is an error exactly if the writing
of some piece, or the closing at the end, has failed (`Swarm.outcome_cases`), and
a failure of writing comes before one of closing.

A failure of a peer takes that peer out of the set and puts its piece back into
the queue, in a step of its own task (`Move.peers_cases`, `Move.claim_kept`).  As
long as the files serve (`Swarm.FilesServe`), no writing fails whatever the peers
do (`Swarm.Serving.change`).
-/

namespace Torrent

/-! ## Failures of the store -/

/-- The failure with which the writing of a piece has just ended. -/
def Phase.refusal? : Phase → Option StorageError
  | .inSession _ (.storing _ (.finished (.error e))) => some e
  | _ => none

/-- The failure of the store that a task carries. -/
def Phase.failure? : Phase → Option StorageError
  | .inSession _ (.storing _ (.finished (.error e))) => some e
  | .inSession _ (.leaving (.storageFailed e)) => some e
  | .gone (.storageFailed e) _ => some e
  | _ => none

theorem Phase.failure?_of_refusal? {p : Phase} {e : StorageError} (h : p.refusal? = some e) :
    p.failure? = some e := by
  simp only [refusal?] at h
  split at h
  next => exact h
  next => cases h

theorem Phase.writing?_of_refusal? {p : Phase} {e : StorageError} (h : p.refusal? = some e) :
    ∃ spec, p.writing? = some (spec, .finished (.error e)) := by
  simp only [refusal?] at h
  split at h
  next =>
    cases h
    exact ⟨_, rfl⟩
  next => cases h

theorem Phase.failure?_of_isOpening {p : Phase} (h : p.isOpening = true) : p.failure? = none := by
  cases p <;> first | rfl | cases h

theorem Work.failure?_of_pursued? {s : Session} {work : Work} {spec : PieceSpec}
    (h : work.pursued? = some spec) : (Phase.inSession s work).failure? = none := by
  cases work <;> first | rfl | cases h

/-- Writing that has not failed carries no failure. -/
theorem Phase.failure?_of_storing {s : Session} {spec : PieceSpec} {writing : Writing}
    {e : StorageError} (h : (Phase.inSession s (.storing spec writing)).failure? = some e) :
    (Phase.inSession s (.storing spec writing)).refusal? = some e := by
  simp only [failure?] at h
  split at h
  next hp =>
    cases hp
    exact h
  next hp => cases hp
  next hp => cases hp
  next => cases h

namespace Move

variable {r : PeerRecord} {fault : Option Fault} {w w' : Shared} {p p' : Phase} {e : StorageError}

/-- A task that carries a failure got it from the writing of its piece. -/
theorem of_failure? (h : Move r fault w p w' p') (hp' : p'.failure? = some e) :
    p.failure? = some e ∨ p'.refusal? = some e := by
  cases h with
  | stay => exact .inl hp'
  | reach hp hopening =>
      rw [Phase.failure?_of_isOpening hopening] at hp'
      cases hp'
  | pursued hspec hspec' =>
      rw [Work.failure?_of_pursued? hspec'] at hp'
      cases hp'
  | fetched => exact .inr (Phase.failure?_of_storing hp')
  | wrote => exact .inr (Phase.failure?_of_storing hp')
  | refused => exact .inl hp'
  | gaveUp => exact .inl hp'
  | _ => cases hp'

/-- A failure is carried on. -/
theorem failure? (h : Move r fault w p w' p') (hp : p.failure? = some e) :
    p'.failure? = some e := by
  cases h with
  | stay => exact hp
  | reach hopening =>
      rw [Phase.failure?_of_isOpening hopening] at hp
      cases hp
  | opened s hopening =>
      rw [Phase.failure?_of_isOpening hopening] at hp
      cases hp
  | lost hopening =>
      rw [Phase.failure?_of_isOpening hopening] at hp
      cases hp
  | pursued hspec =>
      rw [Work.failure?_of_pursued? hspec] at hp
      cases hp
  | failed e' hspec =>
      rw [Work.failure?_of_pursued? hspec] at hp
      cases hp
  | @wrote s spec writing writing' store tree hleft hstep =>
      cases writing with
      | finished result => cases hleft
      | _ => cases hp
  | dropped hd =>
      rcases hd with rfl | ⟨e', rfl⟩
      · cases hp
      · cases hp
  | refused => exact hp
  | gaveUp => exact hp
  | _ => cases hp

end Move

namespace Swarm

variable {w w' start : Swarm} {ev : Event} {events : List Event} {e : StorageError}

/-- The writing of some piece has just ended with this failure. -/
def Refuses (w : Swarm) (e : StorageError) : Prop := ∃ t ∈ w.tasks, t.phase.refusal? = some e

instance (w : Swarm) (e : StorageError) : Decidable (w.Refuses e) :=
  inferInstanceAs (Decidable (∃ t ∈ w.tasks, t.phase.refusal? = some e))

/-- The writing of some piece has ended with this failure in a run. -/
def WriteFails (start : Swarm) (events : List Event) (e : StorageError) : Prop :=
  ∃ before, before <+: events ∧ (start.run before).Refuses e

/-- The closing of the store at the end of a run has failed. -/
def CloseFails (start : Swarm) (events : List Event) : Prop :=
  ∃ before fault after, events = before ++ .closed (some fault) :: after ∧
    (start.run before).outcome = none ∧
    (start.run (before ++ [.closed (some fault)])).outcome ≠ none

theorem WriteFails.append (h : start.WriteFails events e) (after : List Event) :
    start.WriteFails (events ++ after) e := by
  obtain ⟨before, hbefore, hrefuses⟩ := h
  exact ⟨before, hbefore.trans (List.prefix_append _ _), hrefuses⟩

/-- A failure that is noticed is that of a task that is over. -/
theorem Change.of_fatal (h : Change w ev w') (hfatal : w'.fatal = some e) :
    w.fatal = some e ∨ ∃ t ∈ w.tasks, t.phase.failure? = some e := by
  cases h with
  | @joined k t t' result ht hphase =>
      cases result with
      | storageFailed error =>
          cases hnone : w.fatal with
          | none =>
              simp only [TaskEnd.noted, hnone, Option.getD_none, Option.some.injEq] at hfatal
              refine .inr ⟨t, List.mem_of_getElem? ht, ?_⟩
              rw [hphase, ← hfatal]
              rfl
          | some first =>
              simp only [TaskEnd.noted, hnone, Option.getD_some] at hfatal
              exact .inl hfatal
      | finished => exact .inl hfatal
      | cancelled => exact .inl hfatal
  | @stopped k t => cases hclaim : t.phase.claim? <;> exact .inl hfatal
  | moved he ht hnone => exact .inl (hnone.trans (hnone.symm.trans hfatal))
  | _ => exact .inl hfatal

/-- A failure that a task carries, or that was noticed, is one with which writing has ended. -/
theorem writeFails_of_failure? (hphases : ∀ t ∈ start.tasks, t.phase.failure? = none)
    (hfatal : start.fatal = none) (events : List Event) :
    (∀ t ∈ (start.run events).tasks, ∀ e, t.phase.failure? = some e →
      start.WriteFails events e) ∧
    ∀ e, (start.run events).fatal = some e → start.WriteFails events e := by
  induction events using List.reverseRecOn with
  | nil =>
      refine ⟨fun t ht e he => ?_, fun e he => ?_⟩
      · cases (hphases t ht).symm.trans he
      · cases hfatal.symm.trans he
  | append_singleton events ev ih =>
      have hchange := change_step (start.run events) ev
      rw [← run_concat] at hchange
      obtain ⟨hcarried, hnoticed⟩ := ih
      refine ⟨fun t' ht' e he => ?_, fun e he => ?_⟩
      · obtain ⟨k, hk⟩ := List.mem_iff_getElem?.1 ht'
        obtain ⟨t, ht, -, hfate⟩ := hchange.fate hk
        have hmem := List.mem_of_getElem? ht
        cases hfate with
        | rested hphase => exact (hcarried t hmem e (hphase ▸ he)).append _
        | moved hev hnone hmove =>
            rcases hmove.of_failure? he with hold | hrefusal
            · exact (hcarried t hmem e hold).append _
            · exact ⟨_, List.prefix_rfl, t', ht', hrefusal⟩
        | stopped hsome hphase =>
            rw [hphase] at he
            cases he
        | @joined result hphase hphase' =>
            refine (hcarried t hmem e ?_).append _
            rw [hphase]
            rw [hphase'] at he
            cases result with
            | storageFailed error => exact he
            | finished => cases he
            | cancelled => cases he
      · rcases hchange.of_fatal he with hold | ⟨t, ht, hphase⟩
        · exact (hnoticed e hold).append _
        · exact (hcarried t ht e hphase).append _

/-! ## Failures are noticed -/

/-- A failure of the store was noticed, or a task carries one that is yet to be noticed. -/
def Alarmed (w : Swarm) : Prop :=
  w.fatal.isSome = true ∨ ∃ (k : Nat) (t : Task) (e : StorageError), w.tasks[k]? = some t ∧
    t.phase.failure? = some e ∧ ∀ result, t.phase ≠ .gone result true

theorem Refuses.alarmed (h : w.Refuses e) : w.Alarmed := by
  obtain ⟨t, ht, hrefusal⟩ := h
  obtain ⟨k, hk⟩ := List.mem_iff_getElem?.1 ht
  refine .inr ⟨k, t, e, hk, Phase.failure?_of_refusal? hrefusal, fun result hphase => ?_⟩
  rw [hphase] at hrefusal
  cases hrefusal

theorem Alarmed.change (h : w.Alarmed) (hchange : Change w ev w') : w'.Alarmed := by
  rcases h with hfatal | ⟨k, t, e, ht, hfailure, hunnoticed⟩
  · exact .inl (hchange.fatal_isSome hfatal)
  obtain ⟨t', ht', -⟩ := hchange.task ht
  obtain ⟨u, hu, -, hfate⟩ := hchange.fate ht'
  rw [ht] at hu
  cases hu
  cases hfate with
  | rested hphase =>
      refine .inr ⟨k, t', e, ht', hphase ▸ hfailure, fun result => ?_⟩
      rw [hphase]
      exact hunnoticed result
  | moved hev hnone hmove =>
      refine .inr ⟨k, t', e, ht', hmove.failure? hfailure, fun result hgone => ?_⟩
      rw [hgone] at hmove
      rcases hmove.of_gone with ⟨hphase, -⟩ | ⟨hjoined, -⟩
      · exact hunnoticed result hphase
      · cases hjoined
  | stopped hfatal => exact .inl (hchange.fatal_isSome hfatal)
  | @joined result hphase hphase' hnoted =>
      refine .inl ?_
      rw [hphase] at hfailure
      rw [hnoted]
      cases result with
      | storageFailed error => rfl
      | finished => cases hfailure
      | cancelled => cases hfailure

theorem Alarmed.run (h : w.Alarmed) (events : List Event) : (w.run events).Alarmed :=
  run_induction h (fun _ _ _ hchange hv => hv.change hchange) events

/-- When the end of every task was noticed, so was a failure that one of them carried. -/
theorem Alarmed.fatal (h : w.Alarmed) (hjoined : w.allJoined = true) : w.fatal.isSome = true := by
  rcases h with hfatal | ⟨k, t, e, ht, -, hunnoticed⟩
  · exact hfatal
  · obtain ⟨result, hphase⟩ := w.allJoined_iff.1 hjoined t (List.mem_of_getElem? ht)
    exact absurd hphase (hunnoticed result)

/-- Nothing happens to tasks whose end was noticed. -/
theorem allJoined_run (h : w.allJoined = true) (events : List Event) :
    (w.run events).allJoined = true := by
  refine run_induction (P := fun v => v.allJoined = true) h ?_ events
  intro v ev v' hchange hv
  rw [allJoined_iff] at hv
  -- the task that takes its turn is over, and its end was noticed
  have hset : ∀ {k : Nat} {t t' : Task}, v.tasks[k]? = some t →
      (∀ result, t.phase = .gone result true → t'.phase = .gone result true) →
      ∀ u ∈ v.tasks.set k t', ∃ result, u.phase = .gone result true := by
    intro k t t' ht hstays u hu
    rcases List.mem_or_eq_of_mem_set hu with hu | rfl
    · exact hv u hu
    · obtain ⟨result, hphase⟩ := hv t (List.mem_of_getElem? ht)
      exact ⟨result, hstays result hphase⟩
  rw [allJoined_iff]
  cases hchange with
  | nothing => exact hv
  | heard ht hrecord hphase => exact hset ht fun result hgone => hphase.trans hgone
  | moved he ht hfatal hrecord hmove =>
      refine hset ht fun result hgone => ?_
      rw [hgone] at hmove
      exact hmove.from_gone.2
  | stopped ht hfatal hrecord hlive hphase =>
      exact hset ht fun result hgone => absurd hgone (hlive _ _)
  | joined ht hphase hrecord hphase' =>
      refine hset ht fun result hgone => ?_
      cases hphase.symm.trans hgone
  | finished => exact hv

/-- Behind the end of all tasks no writing fails any more. -/
theorem WriteFails.of_allJoined {before after : List Event}
    (h : start.WriteFails (before ++ after) e) (hjoined : (start.run before).allJoined = true) :
    start.WriteFails before e := by
  obtain ⟨part, hpart, hrefuses⟩ := h
  rcases List.prefix_or_prefix_of_prefix hpart (List.prefix_append before after) with
    hle | ⟨rest, rfl⟩
  · exact ⟨part, hle, hrefuses⟩
  · have hlater := allJoined_run hjoined rest
    rw [← run_append] at hlater
    obtain ⟨t, ht, hrefusal⟩ := hrefuses
    obtain ⟨result, hphase⟩ := (start.run (before ++ rest)).allJoined_iff.1 hlater t ht
    rw [hphase] at hrefusal
    cases hrefusal

/-! ## The end -/

/-- The result of a download is the first failure of the store that was noticed, or that of the
closing, or it is none. -/
theorem outcome_finish (w : Swarm) (fault : Option Fault) :
    (∃ e, w.fatal = some e ∧ (w.finish fault).outcome = some (.error (.storage e))) ∨
    (∃ f, w.fatal = none ∧ fault = some f ∧
      (w.finish fault).outcome = some (.error (.storage (.io f.error)))) ∨
    ∃ full, w.fatal = none ∧ fault = none ∧ (w.finish fault).outcome = some (.ok full) := by
  cases hfatal : w.fatal with
  | some e =>
      refine .inl ⟨e, rfl, ?_⟩
      cases fault <;> simp only [finish, closeStore, hfatal]
  | none =>
      cases fault with
      | some f =>
          refine .inr (.inl ⟨f, rfl, rfl, ?_⟩)
          simp only [finish, closeStore, hfatal]
      | none =>
          refine .inr (.inr ⟨w.completed == w.descriptor.pieceCount, rfl, rfl, ?_⟩)
          simp only [finish, closeStore, hfatal]

/-- A download is over by the closing of its store, behind the last task. -/
theorem Change.of_outcome (h : Change w ev w') (hbefore : w.outcome = none)
    (hafter : w'.outcome ≠ none) :
    ∃ fault, ev = .closed fault ∧ w.allJoined = true ∧ w' = w.finish fault := by
  cases h with
  | @finished fault he htasks hjoined houtcome => exact ⟨fault, he, hjoined, rfl⟩
  | _ => exact absurd hbefore hafter

/-- A download that is over was closed. -/
theorem exists_finish (hnone : start.outcome = none) {result : Except TorrentError Bool}
    (hresult : (start.run events).outcome = some result) :
    ∃ before fault after, events = before ++ .closed fault :: after ∧
      (start.run before).outcome = none ∧ (start.run before).allJoined = true ∧
      start.run (before ++ [.closed fault]) = (start.run before).finish fault ∧
      ((start.run before).finish fault).outcome = some result := by
  obtain ⟨before, ev, after, rfl, hbefore, hafter⟩ :=
    exists_step (P := fun v => v.outcome ≠ none) (by simpa using hnone) (by rw [hresult]; nofun)
  have hbefore : (start.run before).outcome = none := by simpa using hbefore
  obtain ⟨fault, rfl, hjoined, hstep⟩ := (change_step _ _).of_outcome hbefore hafter
  refine ⟨before, fault, after, rfl, hbefore, hjoined, by rw [run_concat, hstep], ?_⟩
  obtain ⟨first, hfirst⟩ := Option.ne_none_iff_exists'.1 hafter
  have hend := outcome_run hfirst after
  rw [← run_concat, ← run_append, List.append_assoc, List.singleton_append, hresult] at hend
  rw [← hstep, hfirst, hend]

/-- A download whose closing failed is an error. -/
theorem CloseFails.error (h : start.CloseFails events) {result : Except TorrentError Bool}
    (hresult : (start.run events).outcome = some result) : ∃ e, result = .error (.storage e) := by
  obtain ⟨before, fault, after, rfl, hbefore, hafter⟩ := h
  rw [run_concat] at hafter
  obtain ⟨fault', heq, -, hstep⟩ := (change_step _ _).of_outcome hbefore hafter
  cases heq
  have hend : ∀ e, ((start.run before).finish (some fault)).outcome = some (.error (.storage e)) →
      result = .error (.storage e) := by
    intro e he
    rw [← hstep] at he
    have hlast := outcome_run he after
    rw [← run_concat, ← run_append, List.append_assoc, List.singleton_append, hresult] at hlast
    exact Option.some.inj hlast
  rcases outcome_finish (start.run before) (some fault) with
    ⟨e, -, he⟩ | ⟨f, -, -, he⟩ | ⟨full, -, hfault, -⟩
  · exact ⟨e, hend e he⟩
  · exact ⟨.io f.error, hend _ he⟩
  · cases hfault

/-- A download ends with a failure of writing if there was one, and else with a failure of the
closing if there was one, and else without an error. -/
theorem outcome_cases (hphases : ∀ t ∈ start.tasks, t.phase.failure? = none)
    (hfatal : start.fatal = none) (hnone : start.outcome = none)
    {result : Except TorrentError Bool} (hresult : (start.run events).outcome = some result) :
    (∃ e, start.WriteFails events e ∧ result = .error (.storage e)) ∨
    ((∀ e, ¬start.WriteFails events e) ∧ start.CloseFails events ∧
      ∃ e, result = .error (.storage e)) ∨
    ((∀ e, ¬start.WriteFails events e) ∧ ¬start.CloseFails events ∧
      ∃ full, result = .ok full) := by
  obtain ⟨before, fault, after, rfl, hbefore, hjoined, hstep, hfinish⟩ :=
    exists_finish hnone hresult
  -- a failure of writing was noticed when the end of every task was
  have hquiet : (start.run before).fatal = none →
      ∀ e, ¬start.WriteFails (before ++ .closed fault :: after) e := by
    intro hunknown e hfails
    obtain ⟨part, ⟨rest, rfl⟩, hrefuses⟩ := hfails.of_allJoined hjoined
    have halarmed := hrefuses.alarmed.run rest
    rw [← run_append] at halarmed
    have hsome := halarmed.fatal hjoined
    rw [hunknown] at hsome
    cases hsome
  rcases outcome_finish (start.run before) fault with
    ⟨e, hknown, he⟩ | ⟨f, hunknown, rfl, he⟩ | ⟨full, hunknown, rfl, he⟩
  · obtain rfl := Option.some.inj (hfinish.symm.trans he)
    exact .inl ⟨e, ((writeFails_of_failure? hphases hfatal before).2 e hknown).append _, rfl⟩
  · obtain rfl := Option.some.inj (hfinish.symm.trans he)
    refine .inr (.inl ⟨hquiet hunknown, ⟨before, f, after, rfl, hbefore, ?_⟩, _, rfl⟩)
    rw [hstep, he]
    nofun
  · obtain rfl := Option.some.inj (hfinish.symm.trans he)
    refine .inr (.inr ⟨hquiet hunknown, fun hcloses => ?_, full, rfl⟩)
    obtain ⟨e, herror⟩ := hcloses.error hresult
    cases herror

/-! ## Files that serve -/

end Swarm

/-- Whether writing has failed, or will when the resume file is cut. -/
def Writing.isFailing : Writing → Bool
  | .cutting _ failure => failure.isSome
  | .finished (.error _) => true
  | _ => false

/-- Writing goes on without a failure as long as none is put upon it and its files can be opened. -/
theorem Writing.isFailing_step {w w' : Writing} {s s' : Store} {t t' : FileTree}
    (h : w.step none s t = (w', s', t')) (hw : w.isFailing = false)
    (hopen : ∀ i c rest, w = .placing i (c :: rest) →
      ∃ id, (s.openSlot t c.1.file).1 = .ok id) : w'.isFailing = false := by
  unfold step at h
  split at h
  next =>
    cases h
    rfl
  next i g bytes rest =>
    obtain ⟨id, hid⟩ := hopen i (g, bytes) rest rfl
    dsimp only at h
    split at h
    next hopened =>
      rw [hopened] at hid
      cases hid
    next =>
      cases h
      rfl
  next =>
    cases h
    rfl
  next =>
    cases h
    rfl
  next =>
    split at h
    next =>
      cases h
      rfl
    next =>
      cases h
      rfl
  next =>
    cases h
    rfl
  next n failure =>
    cases failure with
    | none =>
        cases h
        rfl
    | some e => cases hw
  next =>
    cases h
    exact hw

namespace Move

variable {r : PeerRecord} {fault : Option Fault} {w w' : Shared} {p p' : Phase}

/-- What a task stores behind a move it stored before, or it has just begun to store the piece that
it holds, or a step of its writing was taken. -/
theorem writing?_cases (h : Move r fault w p w' p') {spec : PieceSpec} {writing' : Writing}
    (hp' : p'.writing? = some (spec, writing')) :
    p.writing? = some (spec, writing') ∨
    (∃ data, p.claim? = some spec ∧ spec.verify data = true ∧
      writing' = w.store.write spec.index data) ∨
    ∃ writing, p.writing? = some (spec, writing) ∧
      writing.step fault w.store w.tree = (writing', w'.store, w'.tree) := by
  cases h with
  | stay => exact .inl hp'
  | reach hp hopening =>
      rw [Phase.writing?_of_isOpening hopening] at hp'
      cases hp'
  | pursued hspec hspec' =>
      rw [Work.writing?_of_pursued? hspec'] at hp'
      cases hp'
  | fetched hverify =>
      cases hp'
      exact .inr (.inl ⟨_, rfl, hverify, rfl⟩)
  | wrote hleft hstep =>
      cases hp'
      exact .inr (.inr ⟨_, rfl, hstep⟩)
  | _ => cases hp'

/-- A move takes no peer out of the set, or only that of its own task, which is then over. -/
theorem peers_cases (h : Move r fault w p w' p') :
    w'.peers = w.peers ∨ p' = .gone .finished false ∧ w'.peers = (w.peers.remove r.endpoint).2 := by
  cases h with
  | lost => exact .inr ⟨rfl, rfl⟩
  | dropped => exact .inr ⟨rfl, rfl⟩
  | _ => exact .inl rfl

/-- A task keeps the piece it holds, or has it stored, or puts it back into the queue. -/
theorem claim_kept (h : Move r fault w p w' p') {spec : PieceSpec} (hp : p.claim? = some spec) :
    p'.claim? = some spec ∨
    (∃ s, p = .inSession s (.storing spec (.finished (.ok ()))) ∧
      p' = .inSession s (.telling spec.index)) ∨
    spec ∈ w'.queue.pending := by
  cases h with
  | stay => exact .inl hp
  | reach hopening =>
      rw [Phase.claim?_of_isOpening hopening] at hp
      cases hp
  | opened s hopening =>
      rw [Phase.claim?_of_isOpening hopening] at hp
      cases hp
  | lost hopening =>
      rw [Phase.claim?_of_isOpening hopening] at hp
      cases hp
  | pursued hspec hspec' =>
      refine .inl ?_
      exact (Work.claim?_of_pursued? hspec').trans ((Work.claim?_of_pursued? hspec).symm.trans hp)
  | completed s spec' =>
      cases hp
      exact .inr (.inl ⟨s, rfl, rfl⟩)
  | refused s spec' e =>
      cases hp
      exact .inr (.inr (List.mem_append_right _ (List.mem_singleton.2 rfl)))
  | failed e hspec =>
      obtain rfl := Option.some.inj ((Work.claim?_of_pursued? hspec).symm.trans hp)
      exact .inr (.inr (List.mem_append_right _ (List.mem_singleton.2 rfl)))
  | read => exact .inl hp
  | fetched => exact .inl hp
  | wrote => exact .inl hp
  | _ => cases hp

end Move

namespace Swarm

variable {w w' start : Swarm} {ev : Event} {events : List Event} {d : Descriptor} {s : Store}

/-- The files do what is asked of them at an event: the store is closed without a failure, and no
failure is put upon writing, which finds its files. -/
structure FilesServe (w : Swarm) (ev : Event) : Prop where
  closing : ∀ fault, ev ≠ .closed (some fault)
  writing : ∀ k t spec writing, ev.task? = some k → w.tasks[k]? = some t →
    t.phase.writing? = some (spec, writing) → ev.fault? = none ∧
      ∀ i c rest, writing = .placing i (c :: rest) →
        ∃ id, (w.store.openSlot w.tree c.1.file).1 = .ok id

/-- A download of which no writing has failed. -/
structure Serving (d : Descriptor) (s : Store) (w : Swarm) : Prop where
  ledger : w.Ledger d (missing d s)
  layout : w.store.layout = s.layout
  unfailing : ∀ t ∈ w.tasks, ∀ spec writing, t.phase.writing? = some (spec, writing) →
    writing.isFailing = false

/-- As long as the files serve, no writing fails. -/
theorem Serving.change (h : w.Serving d s) (hd : d.Sound) (hfits : s.Fits d)
    (hlengths : s.lengths = d.files.map fun file => file.length.toNat)
    (hserve : w.FilesServe ev) (hchange : Change w ev w') : w'.Serving d s := by
  have hpieces : ∀ spec ∈ missing d s, spec.index.toNat < d.pieceCount :=
    fun spec hspec => index_lt_of_mem_missing hspec
  refine ⟨h.ledger.change hpieces hchange, hchange.grows.layout.trans h.layout, ?_⟩
  intro t' ht' spec writing' hwriting'
  obtain ⟨k, hk⟩ := List.mem_iff_getElem?.1 ht'
  obtain ⟨t, ht, -, hfate⟩ := hchange.fate hk
  have hmem := List.mem_of_getElem? ht
  cases hfate with
  | rested hphase => exact h.unfailing t hmem spec writing' (hphase ▸ hwriting')
  | stopped hfatal hphase =>
      rw [hphase] at hwriting'
      cases hwriting'
  | joined hended hphase =>
      rw [hphase] at hwriting'
      cases hwriting'
  | moved he hfatal hmove =>
      rcases hmove.writing?_cases hwriting' with
        hsame | ⟨data, hclaim, hverify, rfl⟩ | ⟨writing, hwriting, hstep⟩
      · exact h.unfailing t hmem spec writing' hsame
      · -- a piece that was checked has the length that the store expects
        have hknown := h.ledger.known_of_claim hmem hclaim
        have hi := index_lt_of_mem_missing hknown
        have hlength : data.length = d.lengthAt spec.index.toNat := by
          have hpiece := (mem_missing.1 hknown).2.2
          rw [hd.piece?_eq hi] at hpiece
          simp only [PieceSpec.verify, Bool.and_eq_true, beq_iff_eq] at hverify
          rw [hverify.1, ← Option.some.inj hpiece]
          exact hd.toNat_length
        obtain ⟨left, hwrite⟩ := (hfits.of_layout h.layout).write_eq hd
          ((Store.lengths_of_layout h.layout).trans hlengths) hi hlength
        rw [hwrite]
        rfl
      · obtain ⟨hfault, hopen⟩ := hserve.writing k t spec writing he ht hwriting
        rw [hfault] at hstep
        exact Writing.isFailing_step hstep (h.unfailing t hmem spec writing hwriting) hopen

theorem Serving.not_refuses (h : w.Serving d s) (e : StorageError) : ¬w.Refuses e := by
  rintro ⟨t, ht, hrefusal⟩
  obtain ⟨spec, hwriting⟩ := Phase.writing?_of_refusal? hrefusal
  cases h.unfailing t ht spec _ hwriting

/-- No writing fails in a run in which the files serve. -/
theorem Serving.not_writeFails (h : start.Serving d s) (hd : d.Sound) (hfits : s.Fits d)
    (hlengths : s.lengths = d.files.map fun file => file.length.toNat)
    (hserve : ∀ before ev after, events = before ++ ev :: after → (start.run before).FilesServe ev)
    (e : StorageError) : ¬start.WriteFails events e := by
  rintro ⟨before, ⟨rest, rfl⟩, hrefuses⟩
  refine Serving.not_refuses (d := d) (s := s) ?_ e hrefuses
  refine run_moments (P := fun v => v.Serving d s) h ?_
  rintro front ev between rfl hfront
  refine hfront.change hd hfits hlengths (hserve front ev (between ++ rest) ?_) (change_step _ ev)
  rw [List.append_assoc, List.cons_append]

theorem not_closeFails
    (hserve : ∀ before ev after, events = before ++ ev :: after → (start.run before).FilesServe ev) :
    ¬start.CloseFails events := by
  rintro ⟨before, fault, after, rfl, -, -⟩
  exact (hserve before _ after rfl).closing fault rfl

/-! ## Failures of peers -/

/-- A peer leaves the set in a step of its own task, which is then over. -/
theorem Change.peer_of_gone (h : Change w ev w') {r : PeerRecord} (hr : r ∈ w.peers.members)
    (hgone : r ∉ w'.peers.members) :
    ∃ k t, ev.task? = some k ∧ w'.tasks[k]? = some t ∧ t.record.endpoint = r.endpoint ∧
      t.phase = .gone .finished false := by
  cases h with
  | @moved k t t' shared he ht hfatal hrecord hmove =>
      rcases hmove.peers_cases with hsame | ⟨hphase, hpeers⟩
      · change r ∉ shared.peers.members at hgone
        rw [hsame] at hgone
        exact absurd hr hgone
      · refine ⟨k, t', he, List.getElem?_set_self (List.getElem?_eq_some_iff.1 ht).1, ?_, hphase⟩
        change r ∉ shared.peers.members at hgone
        rw [hpeers] at hgone
        by_contra hne
        refine hgone (List.mem_filter.2 ⟨hr, ?_⟩)
        rw [← hrecord]
        exact decide_eq_true fun heq => hne heq.symm
  | @stopped k t => cases hclaim : t.phase.claim? <;> simp_all [Shared.giveBack]
  | _ => exact absurd hr hgone

/-- A task keeps the piece it holds, or has it stored, or puts it back into the queue. -/
theorem Change.claim_kept (h : Change w ev w') {k : Nat} {t t' : Task} {spec : PieceSpec}
    (ht : w.tasks[k]? = some t) (hclaim : t.claim? = some spec) (ht' : w'.tasks[k]? = some t') :
    t'.claim? = some spec ∨
    (∃ session, t.phase = .inSession session (.storing spec (.finished (.ok ()))) ∧
      t'.phase = .inSession session (.telling spec.index)) ∨
    spec ∈ w'.queue.pending := by
  rw [Task.claim?_eq] at hclaim ⊢
  have hsame : t' = t → t'.phase.claim? = some spec := fun heq => heq ▸ hclaim
  cases h with
  | nothing => exact .inl (hsame (Option.some.inj (ht'.symm.trans ht)))
  | finished => exact .inl (hsame (Option.some.inj (ht'.symm.trans ht)))
  | heard hu hrecord hphase =>
      rcases getElem?_set_cases ht' with ⟨rfl, rfl⟩ | ⟨-, ht'⟩
      · obtain rfl := Option.some.inj (hu.symm.trans ht)
        exact .inl (hphase ▸ hclaim)
      · exact .inl (hsame (Option.some.inj (ht'.symm.trans ht)))
  | joined hu hphase =>
      rcases getElem?_set_cases ht' with ⟨rfl, rfl⟩ | ⟨-, ht'⟩
      · obtain rfl := Option.some.inj (hu.symm.trans ht)
        rw [hphase] at hclaim
        cases hclaim
      · exact .inl (hsame (Option.some.inj (ht'.symm.trans ht)))
  | moved he hu hfatal hrecord hmove =>
      rcases getElem?_set_cases ht' with ⟨rfl, rfl⟩ | ⟨-, ht'⟩
      · obtain rfl := Option.some.inj (hu.symm.trans ht)
        exact hmove.claim_kept hclaim
      · exact .inl (hsame (Option.some.inj (ht'.symm.trans ht)))
  | stopped hu hfatal hrecord hlive hphase =>
      rcases getElem?_set_cases ht' with ⟨rfl, rfl⟩ | ⟨-, ht'⟩
      · obtain rfl := Option.some.inj (hu.symm.trans ht)
        rw [hclaim]
        exact .inr (.inr (List.mem_append_right _ (List.mem_singleton.2 rfl)))
      · exact .inl (hsame (Option.some.inj (ht'.symm.trans ht)))

/-- The two kinds of failure in a download that has begun, whatever the peers and the files do and in
whatever order the tasks take their turns.  The result is an error exactly if the writing of some
piece or the closing at the end has failed, and then it is one of the store.  If some writing has
failed, the error is that of one which has, however the closing went and whatever was completed.
As long as the files serve, there is no error, whatever the peers do.  A peer leaves the set in a
step of its own task.  A task has the piece it holds stored, or puts it back into the queue in the
step in which it ceases to hold it. -/
theorem failure_channels {tree tree' : FileTree} {root name : List Char}
    (hcheck : d.check = .ok ()) (hopen : Store.open_ tree root d name = (.ok s, tree'))
    (peers : PeerSet) (settings : Settings) (localId : PeerId) (now : Nat)
    (fault : Option Fault)
    (hbegun : ((seed d s tree' peers settings localId).begin_ now fault).outcome = none) :
    let start := (seed d s tree' peers settings localId).begin_ now fault
    (∀ events result, (start.run events).outcome = some result →
      ((∃ e, result = .error (.storage e)) ↔
        (∃ e, start.WriteFails events e) ∨ start.CloseFails events) ∧
      ((∃ e, start.WriteFails events e) →
        ∃ e, start.WriteFails events e ∧ result = .error (.storage e)) ∧
      ∀ e, result = .error e → ∃ e', e = .storage e') ∧
    (∀ events result, (start.run events).outcome = some result →
      (∀ before ev after, events = before ++ ev :: after → (start.run before).FilesServe ev) →
      ∃ full, result = .ok full) ∧
    (∀ before ev r, r ∈ (start.run before).peers.members →
      r ∉ (start.run (before ++ [ev])).peers.members →
      ∃ k t, ev.task? = some k ∧ (start.run (before ++ [ev])).tasks[k]? = some t ∧
        t.record.endpoint = r.endpoint ∧ t.phase = .gone .finished false) ∧
    ∀ before ev (k : Nat) t t' spec, (start.run before).tasks[k]? = some t →
      t.claim? = some spec → (start.run (before ++ [ev])).tasks[k]? = some t' →
      t'.claim? = some spec ∨
      (∃ session, t.phase = .inSession session (.storing spec (.finished (.ok ()))) ∧
        t'.phase = .inSession session (.telling spec.index)) ∨
      spec ∈ (start.run (before ++ [ev])).queue.pending := by
  intro start
  have hd := Descriptor.sound_of_check hcheck
  obtain ⟨-, -, -, hfatal, hgrows, htasks⟩ :=
    begin_spec (w := seed d s tree' peers settings localId) rfl now fault
  have hdialing : ∀ t ∈ start.tasks, ∃ deadline, t.phase = .dialing deadline := htasks
  have hphases : ∀ t ∈ start.tasks, t.phase.failure? = none := by
    intro t ht
    obtain ⟨deadline, hphase⟩ := hdialing t ht
    rw [hphase]
    rfl
  have hserving : start.Serving d s := by
    refine ⟨ledger_begin (Store.size_open hopen) tree' peers settings localId now fault,
      hgrows.layout, fun t ht spec writing hwriting => ?_⟩
    obtain ⟨deadline, hphase⟩ := hdialing t ht
    rw [hphase] at hwriting
    cases hwriting
  refine ⟨fun events result hresult => ?_, fun events result hresult hserve => ?_,
    fun before ev r hr hgone => ?_, fun before ev k t t' spec ht hclaim ht' => ?_⟩
  · rcases outcome_cases hphases hfatal hbegun hresult with
      ⟨e, hfails, rfl⟩ | ⟨hquiet, hcloses, e, rfl⟩ | ⟨hquiet, hopen', full, rfl⟩
    · refine ⟨⟨fun _ => .inl ⟨e, hfails⟩, fun _ => ⟨e, rfl⟩⟩, fun _ => ⟨e, hfails, rfl⟩, ?_⟩
      rintro e' ⟨⟩
      exact ⟨e, rfl⟩
    · refine ⟨⟨fun _ => .inr hcloses, fun _ => ⟨e, rfl⟩⟩, ?_, ?_⟩
      · rintro ⟨e', hfails⟩
        exact absurd hfails (hquiet e')
      · rintro e' ⟨⟩
        exact ⟨e, rfl⟩
    · refine ⟨⟨nofun, ?_⟩, ?_, nofun⟩
      · rintro (⟨e, hfails⟩ | hcloses)
        · exact absurd hfails (hquiet e)
        · exact absurd hcloses hopen'
      · rintro ⟨e, hfails⟩
        exact absurd hfails (hquiet e)
  · have hquiet := hserving.not_writeFails hd (Store.fits_open hopen)
      (Store.lengths_open hopen) hserve
    rcases outcome_cases hphases hfatal hbegun hresult with
      ⟨e, hfails, -⟩ | ⟨-, hcloses, -⟩ | ⟨-, -, hfull⟩
    · exact absurd hfails (hquiet e)
    · exact absurd hcloses (not_closeFails hserve)
    · exact hfull
  · rw [run_concat] at hgone ⊢
    exact (change_step _ ev).peer_of_gone hr hgone
  · rw [run_concat] at ht' ⊢
    exact (change_step _ ev).claim_kept ht hclaim ht'

/-- The first task fails to write the piece.  The second one completes it before that is noticed,
and then the closing fails too. -/
theorem failure_channels_full_disk :
    let d : Descriptor := ⟨⟨.zero 20⟩, 1, 1, [Sha1.digest [97]], [⟨"a", 1⟩]⟩
    let peer (port : UInt16) : PeerRecord := ⟨⟨.short ⟨127, 0, 0, 1⟩, port⟩, none⟩
    let heard := (Handshake.ours ⟨.zero 20⟩ ⟨.zero 20⟩).encode ++
      Frame.encode (.bitfield [0x80]) ++ Frame.encode .unchoke ++ Frame.encode (.piece 0 0 [97])
    let events : List Event := [.reached 0 0 none, .arrived 0 heard] ++
      List.replicate 11 (.proceeded 0 0 none) ++
      [.proceeded 0 0 (some ⟨0, .other "disk full"⟩), .proceeded 0 0 none,
        .reached 1 0 none, .arrived 1 heard] ++ List.replicate 20 (.proceeded 1 0 none) ++
      [.proceeded 0 0 none, .joined 0, .joined 1, .closed (some ⟨0, .other "disk lost"⟩)]
    d.check = .ok () ∧ ∃ s tree, Store.open_ (.empty []) ['t'] d ['r'] = (.ok s, tree) ∧
      let start := (seed d s tree ⟨[peer 1, peer 2]⟩ .standard ⟨.zero 20⟩).begin_ 0 none
      start.outcome = none ∧ (start.run events.dropLast).completed = 1 ∧
        start.CloseFails events ∧
        ∃ e, start.WriteFails events e ∧
          (start.run events).outcome = some (.error (.storage e)) := by
  intro d peer heard events
  have hopen : Store.open_ (.empty []) ['t'] ⟨⟨.zero 20⟩, 1, 1, [Sha1.digest [97]], [⟨"a", 1⟩]⟩
    ['r'] = (.ok _, _) := rfl
  have hcheck : Descriptor.check ⟨⟨.zero 20⟩, 1, 1, [Sha1.digest [97]], [⟨"a", 1⟩]⟩ = .ok () := rfl
  refine ⟨hcheck, _, _, hopen, ?_⟩
  intro start
  -- the run up to the closing is carried out once
  obtain ⟨hcompleted, hopened, hclosed⟩ : (start.run events.dropLast).completed = 1 ∧
      (start.run events.dropLast).outcome = none ∧
      ((start.run events.dropLast).step (.closed (some ⟨0, .other "disk lost"⟩))).outcome =
        some (.error (.storage (.io (.other "disk full")))) := by
    decide +kernel
  have hsplit : events = events.dropLast ++ [.closed (some ⟨0, .other "disk lost"⟩)] := rfl
  rw [← run_concat, ← hsplit] at hclosed
  have hwrites : start.WriteFails events (.io (.other "disk full")) :=
    ⟨events.take 14, List.take_prefix _ _, by decide +kernel⟩
  have hcloses : start.CloseFails events := by
    refine ⟨events.dropLast, _, [], hsplit, hopened, ?_⟩
    rw [← hsplit, hclosed]
    nofun
  obtain ⟨e, hfails, heq⟩ :=
    ((failure_channels hcheck hopen _ _ _ 0 none rfl).1 events _ hclosed).2.1 ⟨_, hwrites⟩
  exact ⟨rfl, hcompleted, hcloses, e, hfails, hclosed.trans (congrArg some heq)⟩

end Swarm

end Torrent
