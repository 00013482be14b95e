import Torrent.Proofs.Swarm.Ledger

/-!
# What is missing is not reported

A store reports a piece as there from the moment its bit is set.  The task that
set the bit still holds the piece then, until the resume file is written.  Apart
from that, a piece that waits or is held is not reported (`Swarm.Unreported`).

This fails when the resume file cannot be written, since then a piece goes back
to the queue with its bit set.  `Phase.Mishap` is that step.  Each piece is spoken
of by itself here, as long as no mishap befalls it.
-/

namespace Torrent

/-- Whether the task has set the bit of the piece it holds. -/
def Phase.isMarked : Phase → Bool
  | .inSession _ (.storing _ writing) => writing.isMarked
  | _ => false

/-- The resume file could not be written behind the bit of a piece, which is set. -/
def Phase.Mishap (i : PieceIndex) (p p' : Phase) : Prop :=
  ∃ s spec n failure e, spec.index = i ∧ p = .inSession s (.storing spec (.cutting n failure)) ∧
    p' = .inSession s (.storing spec (.finished (.error e)))

theorem Work.isMarked_of_pursued? {s : Session} {work : Work} {spec : PieceSpec}
    (h : work.pursued? = some spec) : (Phase.inSession s work).isMarked = false := by
  cases work with
  | storing spec writing => cases h
  | _ => rfl

/-- A step of writing that leaves the bit alone does not follow a bit that is set, unless the resume
file could not be written. -/
theorem Writing.Effect.unmarked {fault : Option Fault} {s s' : Store} {t t' : FileTree}
    {writing writing' : Writing} (h : Effect fault s t writing writing' s' t')
    (hmarked : writing'.isMarked = false) :
    (s'.completed = s.completed ∧ writing.isMarked = false) ∨
      ∃ n failure e, writing = .cutting n failure ∧ writing' = .finished (.error e) := by
  cases h with
  | opening hopen => exact .inl ⟨(Store.openSlot_store hopen).2.1, rfl⟩
  | unopened hopen => exact .inl ⟨(Store.openSlot_store hopen).2.1, rfl⟩
  | marked => cases hmarked
  | saved => cases hmarked
  | closed => cases hmarked
  | spoiled => exact .inr ⟨_, _, _, rfl, rfl⟩
  | ended => exact .inl ⟨rfl, hmarked⟩
  | _ => exact .inl ⟨rfl, rfl⟩

namespace Move

variable {r : PeerRecord} {fault : Option Fault} {w w' : Shared} {p p' : Phase} {x : PieceSpec}

/-- A piece that a move makes known is the one being marked. -/
theorem hasPiece {i : PieceIndex} (h : Move r fault w p w' p') (hi : w'.store.hasPiece i = true) :
    w.store.hasPiece i = true ∨ ∃ s spec, p = .inSession s (.storing spec (.marking i)) := by
  cases h with
  | read hstep =>
      simp only [Store.hasPiece] at hi ⊢
      rw [← (Reading.step_store hstep).2.1]
      exact .inl hi
  | wrote hleft hstep =>
      rcases (Writing.step_effect hstep).hasPiece hi with hi | rfl
      · exact .inl hi
      · exact .inr ⟨_, _, rfl⟩
  | _ => exact .inl hi

/-- What waits behind a move waited before, or the task gave it back without having set its bit. -/
theorem mem_pending (h : Move r fault w p w' p') (hx : x ∈ w'.queue.pending) :
    x ∈ w.queue.pending ∨ p.claim? = some x ∧ p.isMarked = false ∧ w'.store = w.store := by
  cases h with
  | claimed left hclaim =>
      obtain ⟨-, hpending, -⟩ := WorkQueue.claim_piece hclaim
      exact .inl (hpending.symm.subset (List.mem_cons_of_mem _ hx))
  | refused s spec e =>
      rcases List.mem_append.1 hx with hx | hx
      · exact .inl hx
      · obtain rfl := List.mem_singleton.1 hx
        exact .inr ⟨rfl, rfl, rfl⟩
  | failed e hspec =>
      rcases List.mem_append.1 hx with hx | hx
      · exact .inl hx
      · obtain rfl := List.mem_singleton.1 hx
        exact .inr ⟨Work.claim?_of_pursued? hspec, Work.isMarked_of_pursued? hspec, rfl⟩
  | _ => exact .inl hx

/-- A piece that a task holds behind a move, with its bit left alone, waited before or was held by
the task. -/
theorem claim_cases (h : Move r fault w p w' p') (hx : p'.claim? = some x)
    (hmarked : p'.isMarked = false) :
    p.Mishap x.index p' ∨ w'.store.completed = w.store.completed ∧
      (x ∈ w.queue.pending ∨ p.claim? = some x ∧ p.isMarked = false) := by
  cases h with
  | stay => exact .inr ⟨rfl, .inr ⟨hx, hmarked⟩⟩
  | reach hp hp' =>
      rw [Phase.claim?_of_isOpening hp'] at hx
      cases hx
  | claimed left hclaim =>
      obtain ⟨-, hpending, -⟩ := WorkQueue.claim_piece hclaim
      cases hx
      exact .inr ⟨rfl, .inl (hpending.symm.subset (List.mem_cons_self ..))⟩
  | @pursued s s' work work' spec hspec hspec' =>
      have hsame : work'.claim? = some spec := Work.claim?_of_pursued? hspec'
      rw [Phase.claim?, hsame] at hx
      cases hx
      exact .inr ⟨rfl, .inr ⟨Work.claim?_of_pursued? hspec, Work.isMarked_of_pursued? hspec⟩⟩
  | read hstep => exact .inr ⟨(Reading.step_store hstep).2.1, .inr ⟨hx, rfl⟩⟩
  | fetched => exact .inr ⟨rfl, .inr ⟨hx, rfl⟩⟩
  | wrote hleft hstep =>
      rcases (Writing.step_effect hstep).unmarked hmarked with
        ⟨hcompleted, hunmarked⟩ | ⟨n, failure, e, rfl, rfl⟩
      · exact .inr ⟨hcompleted, .inr ⟨hx, hunmarked⟩⟩
      · cases hx
        exact .inl ⟨_, _, n, failure, e, rfl, rfl, rfl⟩
  | _ => cases hx

end Move

namespace Swarm

variable {d : Descriptor} {pieces : List PieceSpec} {w w' : Swarm} {e : Event} {i : PieceIndex}

/-! ## Different pieces -/

theorem Ledger.index_ne_of_pending (h : w.Ledger d pieces) {x y : PieceSpec} {t : Task}
    (hx : x ∈ w.queue.pending) (ht : t ∈ w.tasks) (hy : t.phase.claim? = some y) :
    x.index ≠ y.index := by
  have hdistinct := h.distinct
  simp only [outstanding] at hdistinct
  rw [List.map_append] at hdistinct
  refine (List.nodup_append.1 hdistinct).2.2 _ (List.mem_map_of_mem hx) _ (List.mem_map_of_mem ?_)
  rw [← Task.claim?_eq] at hy
  exact List.mem_filterMap.2 ⟨t, ht, hy⟩

/-- Two tasks hold different pieces. -/
theorem Ledger.index_ne_of_claims (h : w.Ledger d pieces) {j k : Nat} {u t : Task}
    {x y : PieceSpec} (hne : j ≠ k) (hj : w.tasks[j]? = some u) (hk : w.tasks[k]? = some t)
    (hx : u.phase.claim? = some x) (hy : t.phase.claim? = some y) : x.index ≠ y.index := by
  have hdistinct := h.distinct
  simp only [outstanding] at hdistinct
  rw [List.map_append] at hdistinct
  have hheld := (List.nodup_append.1 hdistinct).2.1
  simp only [held, List.Nodup] at hheld
  rw [List.pairwise_map, List.pairwise_filterMap, List.pairwise_iff_getElem] at hheld
  obtain ⟨hjlt, hju⟩ := List.getElem?_eq_some_iff.1 hj
  obtain ⟨hklt, hkt⟩ := List.getElem?_eq_some_iff.1 hk
  rw [← Task.claim?_eq] at hx hy
  rcases Nat.lt_or_gt_of_ne hne with hlt | hlt
  · exact hheld j k hjlt hklt hlt x (by rw [hju, hx]) y (by rw [hkt, hy])
  · exact (hheld k j hklt hjlt hlt y (by rw [hkt, hy]) x (by rw [hju, hx])).symm

/-! ## Unreported pieces -/

/-- A piece that waits is not reported, and one that is held only if it is marked. -/
structure Unreported (w : Swarm) (i : PieceIndex) : Prop where
  pending : ∀ spec ∈ w.queue.pending, spec.index = i → w.store.hasPiece i = false
  claims : ∀ t ∈ w.tasks, ∀ spec, t.phase.claim? = some spec → spec.index = i →
    t.phase.isMarked = false → w.store.hasPiece i = false

/-- The changes between two moments hold no mishap for a piece. -/
def Unharmed (w w' : Swarm) (i : PieceIndex) : Prop :=
  ∀ (k : Nat) (t t' : Task), w.tasks[k]? = some t → w'.tasks[k]? = some t' →
    ¬t.phase.Mishap i t'.phase

/-- A bit that a task sets is that of its own piece. -/
theorem Ledger.hasPiece_of_move (h : w.Ledger d pieces) {t : Task} (ht : t ∈ w.tasks)
    {r : PeerRecord} {fault : Option Fault} {shared : Shared} {p' : Phase}
    (hmove : Move r fault w.toShared t.phase shared p')
    (hne : ∀ y, t.phase.claim? = some y → i ≠ y.index)
    (hi : w.store.hasPiece i = false) : shared.store.hasPiece i = false := by
  refine Bool.eq_false_iff.2 fun hset => ?_
  rcases hmove.hasPiece hset with hset | ⟨s, spec, hphase⟩
  · rw [hset] at hi
    cases hi
  · have htracked := h.tracked t ht
    rw [hphase] at htracked
    exact hne spec (by rw [hphase]; rfl) htracked

theorem Unreported.moved (hu : w.Unreported i) (h : w.Ledger d pieces) {k : Nat} {t t' : Task}
    {r : PeerRecord} {fault : Option Fault} {shared : Shared} (ht : w.tasks[k]? = some t)
    (hmove : Move r fault w.toShared t.phase shared t'.phase)
    (hunharmed : ¬t.phase.Mishap i t'.phase) :
    Unreported { w with toShared := shared, tasks := w.tasks.set k t' } i := by
  have hmem := List.mem_of_getElem? ht
  -- a bitmap that stays reports no more than before
  have hsame : shared.store.completed = w.store.completed →
      w.store.hasPiece i = false → shared.store.hasPiece i = false := by
    intro hcompleted hi
    simp only [Store.hasPiece] at hi ⊢
    rw [hcompleted]
    exact hi
  refine ⟨?_, fun u hu' => ?_⟩
  · rintro x hx rfl
    rcases hmove.mem_pending hx with hx | ⟨hclaim, hmarked, hstore⟩
    · exact h.hasPiece_of_move hmem hmove (fun y hy => h.index_ne_of_pending hx hmem hy)
        (hu.pending x hx rfl)
    · exact hsame (congrArg Store.completed hstore) (hu.claims t hmem x hclaim rfl hmarked)
  · rintro x hclaim rfl hmarked
    obtain ⟨j, hj⟩ := List.mem_iff_getElem?.1 hu'
    rcases getElem?_set_cases hj with ⟨rfl, rfl⟩ | ⟨hne, hj⟩
    · rcases hmove.claim_cases hclaim hmarked with
        hmishap | ⟨hcompleted, hpending | ⟨hclaim, hunmarked⟩⟩
      · exact absurd hmishap hunharmed
      · exact hsame hcompleted (hu.pending x hpending rfl)
      · exact hsame hcompleted (hu.claims t hmem x hclaim rfl hunmarked)
    · exact h.hasPiece_of_move hmem hmove (fun y hy => h.index_ne_of_claims hne hj ht hclaim hy)
        (hu.claims u (List.mem_of_getElem? hj) x hclaim rfl hmarked)

theorem Unreported.change (hu : w.Unreported i) (h : w.Ledger d pieces) (hchange : Change w e w')
    (hfatal' : w'.fatal = none) (hunharmed : w.Unharmed w' i) : w'.Unreported i := by
  cases hchange with
  | nothing => exact hu
  | heard ht hrecord hphase =>
      refine ⟨hu.pending, fun u hmem => ?_⟩
      rcases List.mem_or_eq_of_mem_set hmem with hmem | rfl
      · exact hu.claims u hmem
      · rw [hphase]
        exact hu.claims _ (List.mem_of_getElem? ht)
  | stopped ht hfatal =>
      change w.fatal = none at hfatal'
      rw [hfatal'] at hfatal
      cases hfatal
  | joined ht hphase hrecord hphase' =>
      refine ⟨hu.pending, fun u hmem => ?_⟩
      rcases List.mem_or_eq_of_mem_set hmem with hmem | rfl
      · exact hu.claims u hmem
      · rw [hphase']
        exact nofun
  | finished => exact ⟨hu.pending, hu.claims⟩
  | moved he ht hfatal hrecord hmove =>
      refine hu.moved h ht hmove (hunharmed _ _ _ ht ?_)
      exact List.getElem?_set_self (List.getElem?_eq_some_iff.1 ht).1

/-- In the beginning every piece that waits is missing. -/
theorem unreported_begin (d : Descriptor) (s : Store) (t : FileTree) (peers : PeerSet)
    (settings : Settings) (localId : PeerId) (now : Nat) (fault : Option Fault) (i : PieceIndex) :
    ((seed d s t peers settings localId).begin_ now fault).Unreported i := by
  have hcompleted : ((seed d s t peers settings localId).begin_ now fault).store.completed =
      s.completed := by
    simp only [begin_]
    split
    · cases fault <;> rfl
    · split <;> rfl
  obtain ⟨hqueue, -, -, -, -, htasks⟩ :=
    begin_spec (w := seed d s t peers settings localId) rfl now fault
  refine ⟨?_, fun task htask spec hspec => ?_⟩
  · rintro spec hspec rfl
    rw [hqueue] at hspec
    simp only [Store.hasPiece]
    rw [hcompleted]
    exact (mem_missing.1 hspec).2.1
  · obtain ⟨deadline, hphase⟩ := htasks task htask
    rw [hphase] at hspec
    cases hspec

end Swarm

end Torrent
