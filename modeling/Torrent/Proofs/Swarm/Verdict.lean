import Torrent.Proofs.Swarm.Departure
import Torrent.Proofs.Swarm.Unreported

/-!
# The verdict of a download

The result of a download comes from a counter of its own.  It agrees with the
queue and with the store: as long as the store does not fail, the download says
that it is full exactly when the store has every piece, and that it is not full
exactly when pieces still wait (`Swarm.verdict`).

No peer is left then either: each peer has a task, and while anything is
outstanding a task that ends takes its peer out of the set (`Swarm.Attended`).
-/

namespace Torrent

namespace Move

variable {r : PeerRecord} {fault : Option Fault} {w w' : Shared} {p p' : Phase}

/-- Peers only leave the set. -/
theorem peers_subset (h : Move r fault w p w' p') : w'.peers.members ⊆ w.peers.members := by
  intro x hx
  cases h with
  | lost => exact (List.mem_filter.1 hx).1
  | dropped => exact (List.mem_filter.1 hx).1
  | _ => exact hx

/-- A task that ends takes its peer out of the set, unless nothing is left or the store failed. -/
theorem peers_of_gone {result : TaskEnd} {joined : Bool}
    (h : Move r fault w p w' (.gone result joined)) :
    p = .gone result joined ∨ (∃ s, p = .inSession s (.leaving .drained)) ∨
      (∃ s e, p = .inSession s (.leaving (.storageFailed e))) ∨ r ∉ w'.peers.members := by
  have hremoved : r ∉ (w.peers.remove r.endpoint).2.members := by
    intro hmem
    simpa using (List.mem_filter.1 hmem).2
  cases h with
  | stay => exact .inl rfl
  | reach hp hp' => cases hp'
  | lost => exact .inr (.inr (.inr hremoved))
  | departed s => exact .inr (.inl ⟨s, rfl⟩)
  | dropped => exact .inr (.inr (.inr hremoved))
  | gaveUp s e => exact .inr (.inr (.inl ⟨s, e, rfl⟩))

end Move

/-- Whether storing the piece of a task in this phase has just failed. -/
def Phase.isRefused : Phase → Bool
  | .inSession _ (.storing _ (.finished (.error _))) => true
  | _ => false

/-- Whether a task in this phase has met a failure of the store, or was stopped behind one. -/
def Phase.isFailing : Phase → Bool
  | .inSession _ (.storing _ (.finished (.error _))) => true
  | .inSession _ (.leaving (.storageFailed _)) => true
  | .gone (.storageFailed _) _ | .gone .cancelled _ => true
  | _ => false

/-- A failure of the store first shows in the writing of a piece. -/
theorem Move.isFailing {r : PeerRecord} {fault : Option Fault} {w w' : Shared} {p p' : Phase}
    (h : Move r fault w p w' p') (hp : p.isFailing = false) (hp' : p'.isRefused = false) :
    p'.isFailing = false := by
  have hstoring : ∀ (s : Session) (spec : PieceSpec) (writing : Writing),
      (Phase.inSession s (.storing spec writing)).isRefused = false →
      (Phase.inSession s (.storing spec writing)).isFailing = false := by
    intro s spec writing hrefused
    cases writing with
    | finished result =>
        cases result with
        | ok u => rfl
        | error e => cases hrefused
    | _ => rfl
  cases h with
  | stay => exact hp
  | reach _ hopening =>
      cases p' with
      | inSession s work => cases hopening
      | gone result joined => cases hopening
      | _ => rfl
  | @pursued _ _ _ work' _ _ hspec' =>
      cases work' with
      | storing spec writing => cases hspec'
      | leaving reason => cases hspec'
      | _ => rfl
  | fetched => exact hstoring _ _ _ hp'
  | wrote => exact hstoring _ _ _ hp'
  | refused => cases hp
  | dropped hd =>
      rcases hd with rfl | ⟨e, rfl⟩
      · rfl
      · rfl
  | gaveUp => cases hp
  | _ => rfl

namespace Swarm

variable {d : Descriptor} {pieces : List PieceSpec} {w w' : Swarm} {e : Event}

/-- No task has just failed to store its piece. -/
def StorageHolds (w : Swarm) : Prop := ∀ t ∈ w.tasks, t.phase.isRefused = false

instance (w : Swarm) : Decidable w.StorageHolds :=
  inferInstanceAs (Decidable (∀ t ∈ w.tasks, t.phase.isRefused = false))

/-! ## A store that does not fail -/

/-- No failure of the store has been met. -/
structure Calm (w : Swarm) : Prop where
  tasks : ∀ t ∈ w.tasks, t.phase.isFailing = false
  fatal : w.fatal = none
  outcome : ∀ result, w.outcome = some result → ∃ full, result = .ok full

theorem Calm.change (h : w.Calm) (hchange : Change w e w')
    (hclose : ∀ fault, e ≠ .closed (some fault))
    (hholds : w'.StorageHolds) : w'.Calm := by
  have htasks : ∀ t ∈ w'.tasks, t.phase.isFailing = false := by
    intro t' ht'
    obtain ⟨k, hk⟩ := List.mem_iff_getElem?.1 ht'
    obtain ⟨t, ht, -, hfate⟩ := hchange.fate hk
    have hcalm := h.tasks t (List.mem_of_getElem? ht)
    cases hfate with
    | rested hphase =>
        rw [hphase]
        exact hcalm
    | moved he hfatal hmove => exact hmove.isFailing hcalm (hholds t' ht')
    | stopped hfatal =>
        rw [h.fatal] at hfatal
        cases hfatal
    | @joined result hphase hphase' =>
        rw [hphase] at hcalm
        rw [hphase']
        cases result with
        | finished => rfl
        | cancelled => cases hcalm
        | storageFailed error => cases hcalm
  cases hchange with
  | @joined k t t' result ht hphase =>
      refine ⟨htasks, ?_, h.outcome⟩
      have hcalm := h.tasks t (List.mem_of_getElem? ht)
      rw [hphase] at hcalm
      cases result with
      | finished => exact h.fatal
      | cancelled => cases hcalm
      | storageFailed error => cases hcalm
  | @finished fault he htasks' hjoined houtcome =>
      cases fault with
      | some fault => exact absurd he (hclose fault)
      | none =>
          refine ⟨htasks, h.fatal, ?_⟩
          intro result hresult
          unfold Swarm.finish closeStore at hresult
          dsimp only at hresult
          rw [h.fatal] at hresult
          cases hresult
          exact ⟨_, rfl⟩
  | _ => exact ⟨htasks, h.fatal, h.outcome⟩

/-! ## Peers -/

/-- While anything is outstanding, every peer of the set has a task that is not over. -/
def Attended (w : Swarm) : Prop :=
  w.outstanding ≠ [] → ∀ r ∈ w.peers.members,
    ∃ (k : Nat) (t : Task), w.tasks[k]? = some t ∧ t.record = r ∧
      ∀ result joined, t.phase ≠ .gone result joined

theorem Change.peers_subset (h : Change w e w') : w'.peers.members ⊆ w.peers.members := by
  cases h with
  | moved he ht hfatal hrecord hmove => exact hmove.peers_subset
  | @stopped k t t' ht => cases t.phase.claim? <;> exact List.Subset.refl _
  | _ => exact List.Subset.refl _

theorem Attended.change (h : w.Attended) (hcalm : w.Calm) (hdry : w.Dry)
    (hsub : w'.outstanding ⊆ w.outstanding) (hchange : Change w e w') : w'.Attended := by
  intro hout r hr
  have hbefore : w.outstanding ≠ [] := by
    intro hnil
    rw [hnil] at hsub
    exact hout (List.subset_nil.1 hsub)
  obtain ⟨k, t, ht, hrecord, hlive⟩ := h hbefore r (hchange.peers_subset hr)
  obtain ⟨t', ht', hrecord'⟩ := hchange.task ht
  refine ⟨k, t', ht', hrecord'.trans hrecord, ?_⟩
  intro result joined hgone
  obtain ⟨u, hu, -, hfate⟩ := hchange.fate ht'
  rw [ht] at hu
  cases hu
  cases hfate with
  | rested hphase => exact hlive result joined (hphase ▸ hgone)
  | stopped hfatal =>
      rw [hcalm.fatal] at hfatal
      cases hfatal
  | joined hphase => exact hlive _ _ hphase
  | moved he hfatal hmove =>
      rw [hgone, hrecord] at hmove
      rcases hmove.peers_of_gone with hphase | ⟨s, hphase⟩ | ⟨s, error, hphase⟩ | hremoved
      · exact hlive _ _ hphase
      · exact hbefore (hdry k s ⟨t, ht, hphase⟩)
      · have hfailing := hcalm.tasks t (List.mem_of_getElem? ht)
        rw [hphase] at hfailing
        cases hfailing
      · exact hremoved hr

theorem attended_begin (d : Descriptor) (s : Store) (t : FileTree) (peers : PeerSet)
    (settings : Settings) (localId : PeerId) (now : Nat) :
    ((seed d s t peers settings localId).begin_ now none).Attended := by
  intro hout r hr
  simp only [begin_] at hout hr ⊢
  split at hout
  next hdrained =>
    obtain ⟨hpending, -⟩ := WorkQueue.isDrained_iff.1 hdrained
    refine absurd ?_ hout
    simp only [outstanding, held]
    exact List.append_eq_nil_iff.2 ⟨hpending, rfl⟩
  next hdrained =>
    rw [if_neg hdrained] at hr ⊢
    split at hout
    next hempty =>
      rw [if_pos hempty] at hr
      have hnil : peers.members = [] := List.isEmpty_iff.1 hempty
      change r ∈ peers.members at hr
      rw [hnil] at hr
      cases hr
    next hpeers =>
      rw [if_neg hpeers] at hr ⊢
      obtain ⟨k, hk⟩ := List.mem_iff_getElem?.1 hr
      refine ⟨k, Task.start r (now + settings.connectTimeout), ?_, rfl, fun _ _ heq => ?_⟩
      · rw [List.getElem?_map]
        exact congrArg (Option.map _) hk
      · cases heq

/-! ## The verdict -/

/-- A download whose store has not failed: its books are in order, what is missing is not reported
and no peer is forgotten. -/
structure Smooth (d : Descriptor) (pieces : List PieceSpec) (w : Swarm) : Prop where
  accounted : w.Accounted d pieces
  calm : w.Calm
  unreported : ∀ i, w.Unreported i
  attended : w.Attended

theorem Smooth.change (hpieces : ∀ spec ∈ pieces, spec.index.toNat < d.pieceCount)
    (h : w.Smooth d pieces) (hclose : ∀ fault, e ≠ .closed (some fault))
    (hholds : (w.step e).StorageHolds) : (w.step e).Smooth d pieces := by
  have hchange := change_step w e
  have hledger := h.accounted.ledger
  have hcalm := h.calm.change hchange hclose hholds
  have hunharmed : ∀ i, w.Unharmed (w.step e) i := by
    rintro i k t t' ht ht' ⟨s, spec, n, failure, error, -, -, hphase'⟩
    have hrefused := hholds t' (List.mem_of_getElem? ht')
    rw [hphase'] at hrefused
    cases hrefused
  exact ⟨h.accounted.change hpieces hchange, hcalm,
    fun i => (h.unreported i).change hledger hchange hcalm.fatal (hunharmed i),
    h.attended.change h.calm h.accounted.dry (hledger.outstanding_change hpieces hchange) hchange⟩

theorem calm_begin {d : Descriptor} {s : Store} {t : FileTree} {peers : PeerSet}
    (hpeers : peers.isEmpty = false) (settings : Settings) (localId : PeerId) (now : Nat) :
    ((seed d s t peers settings localId).begin_ now none).Calm := by
  obtain ⟨-, -, -, hfatal, -, htasks⟩ :=
    begin_spec (w := seed d s t peers settings localId) rfl now none
  refine ⟨fun task htask => ?_, hfatal, fun result hresult => ?_⟩
  · obtain ⟨deadline, hphase⟩ := htasks task htask
    rw [hphase]
    rfl
  · simp only [begin_] at hresult
    split at hresult
    next =>
      cases hresult
      exact ⟨true, rfl⟩
    next =>
      split at hresult
      next hempty =>
        change peers.isEmpty = true at hempty
        rw [hpeers] at hempty
        cases hempty
      next => cases hresult

/-- What the end of a download says, from its books. -/
theorem Smooth.result {s : Store} (h : w.Smooth d (missing d s)) (hgrows : s.Grows w.store)
    (hd : d.Sound) (hcount : d.pieceCount < UInt32.size) {result : Except TorrentError Bool}
    (hresult : w.outcome = some result) :
    (result = .ok true ↔ ∀ i : PieceIndex, i.toNat < d.pieceCount → w.store.hasPiece i = true) ∧
      (result = .ok true → w.queue.isDrained = true) ∧
      (result = .ok false ↔ w.queue.pending ≠ []) ∧
      (result = .ok false → w.queue.inFlight = 0 ∧ w.peers.isEmpty = true) := by
  have hledger := h.accounted.ledger
  obtain ⟨full, rfl⟩ := h.calm.outcome result hresult
  obtain ⟨hgone, -⟩ := h.accounted.concluded full hresult
  have hheld := h.accounted.held_of_outcome hresult
  have hflight : w.queue.inFlight = 0 := by
    rw [hledger.count, hheld]
    rfl
  have hout : w.outstanding = w.queue.pending := by
    simp only [outstanding]
    rw [hheld, List.append_nil]
  have hpending : full = true ↔ w.queue.pending = [] := hout ▸ h.accounted.full_iff hresult
  have hall : w.queue.pending = [] ↔
      ∀ i : PieceIndex, i.toNat < d.pieceCount → w.store.hasPiece i = true := by
    constructor
    · intro hnil i hi
      refine Bool.of_not_eq_false fun hbit => ?_
      obtain ⟨spec, hspec, -⟩ := hledger.exists_outstanding hgrows hd hcount hi hbit
      rw [hout, hnil] at hspec
      cases hspec
    · intro hset
      refine List.eq_nil_iff_forall_not_mem.2 fun spec hspec => ?_
      have hknown := hledger.known (hout ▸ hspec)
      have hbit := hset spec.index (index_lt_of_mem_missing hknown)
      rw [(h.unreported spec.index).pending spec hspec rfl] at hbit
      cases hbit
  refine ⟨?_, ?_, ?_, ?_⟩
  · rw [← hall, ← hpending]
    simp
  · intro hok
    cases hok
    exact WorkQueue.isDrained_iff.2 ⟨hpending.1 rfl, hflight⟩
  · rw [ne_eq, ← hpending]
    simp
  · intro hok
    cases hok
    refine ⟨hflight, ?_⟩
    have hne : w.outstanding ≠ [] := by
      rw [hout]
      intro hnil
      cases hpending.2 hnil
    refine List.isEmpty_iff.2 (List.eq_nil_iff_forall_not_mem.2 fun r hr => ?_)
    obtain ⟨k, t, ht, -, hlive⟩ := h.attended hne r hr
    exact hlive _ _ (hgone t (List.mem_of_getElem? ht))

/-- The verdict of a download from a set of peers, whatever the peers do and in whatever order, as
long as the store does not fail: between any two steps every piece is complete, waits or is held,
and the result is that the download is full exactly when every piece is there, and that it is not
full exactly when pieces still wait.  In the first case the queue is drained, in the second nothing
is held and no peer is left. -/
theorem verdict {d : Descriptor} {s : Store} {tree tree' : FileTree} {root name : List Char}
    (hcheck : d.check = .ok ()) (hcount : d.pieceCount < UInt32.size)
    (hopen : Store.open_ tree root d name = (.ok s, tree')) {peers : PeerSet}
    (hpeers : peers.isEmpty = false) (settings : Settings) (localId : PeerId) (now : Nat)
    (events : List Event)
    (hholds : ∀ before, before <+: events →
      (((seed d s tree' peers settings localId).begin_ now none).run before).StorageHolds)
    (hclose : ∀ fault, .closed (some fault) ∉ events) :
    let w := ((seed d s tree' peers settings localId).begin_ now none).run events
    w.completed + w.queue.pending.length + w.queue.inFlight = d.pieceCount ∧
      ∀ result, w.outcome = some result →
        (result = .ok true ↔
          ∀ i : PieceIndex, i.toNat < d.pieceCount → w.store.hasPiece i = true) ∧
        (result = .ok true → w.queue.isDrained = true) ∧
        (result = .ok false ↔ w.queue.pending ≠ []) ∧
        (result = .ok false → w.queue.inFlight = 0 ∧ w.peers.isEmpty = true) := by
  intro w
  have hpieces : ∀ spec ∈ missing d s, spec.index.toNat < d.pieceCount :=
    fun spec hspec => index_lt_of_mem_missing hspec
  have hsmooth : w.Smooth d (missing d s) := by
    refine run_moments (P := fun v => v.Smooth d (missing d s)) ?_ ?_
    · exact ⟨accounted_begin (Store.size_open hopen) tree' peers settings localId now none,
        calm_begin hpeers settings localId now,
        unreported_begin d s tree' peers settings localId now none,
        attended_begin d s tree' peers settings localId now⟩
    · intro before e after heq hbefore
      have hprefix : before ++ [e] <+: events := ⟨after, by rw [heq, List.append_assoc]; rfl⟩
      refine hbefore.change hpieces ?_ ?_
      · rintro fault rfl
        exact hclose fault (by rw [heq]; simp)
      · rw [← run_concat]
        exact hholds _ hprefix
  have hledger := hsmooth.accounted.ledger
  refine ⟨?_, fun result hresult => ?_⟩
  · have htally := hledger.tally
    simp only [outstanding] at htally
    rw [List.length_append, ← hledger.count] at htally
    omega
  · exact hsmooth.result (grows_begin_run d s tree' peers settings localId now none events)
      (Descriptor.sound_of_check hcheck) hcount hresult

/-- One peer cannot be reached and another one does not answer in time.  Then one peer has nothing
and another one has the piece. -/
theorem verdict_deaf_or_serving_peers :
    let d : Descriptor := ⟨⟨.zero 20⟩, 1, 1, [Sha1.digest [97]], [⟨"a", 1⟩]⟩
    let deaf : List Event := [.refused 0, .clock 1 3000, .joined 1, .joined 0, .closed none]
    let serving : List Event := served 0 [0] [97] 4 ++ served 1 [0x80] [97] 20 ++
      [.joined 0, .joined 1, .closed none]
    d.check = .ok () ∧ ∃ s tree, Store.open_ (.empty []) ['t'] d ['r'] = (.ok s, tree) ∧
      let start := (seed d s tree twoPeers .standard ⟨.zero 20⟩).begin_ 0 none
      ((∀ before, before <+: deaf → (start.run before).StorageHolds) ∧
        (start.run deaf).outcome = some (.ok false) ∧
        (start.run deaf).queue.pending ≠ [] ∧ (start.run deaf).queue.inFlight = 0 ∧
        (start.run deaf).peers.isEmpty = true) ∧
      (∀ before, before <+: serving → (start.run before).StorageHolds) ∧
        (start.run serving).outcome = some (.ok true) ∧
        (start.run serving).queue.isDrained = true ∧
        ∀ i : PieceIndex, i.toNat < d.pieceCount →
          (start.run serving).store.hasPiece i = true := by
  have hopen : Store.open_ (.empty []) ['t'] ⟨⟨.zero 20⟩, 1, 1, [Sha1.digest [97]], [⟨"a", 1⟩]⟩
    ['r'] = (.ok _, _) := rfl
  have hpeers : twoPeers.isEmpty = false := rfl
  have hverdict := verdict rfl (by decide) hopen hpeers .standard ⟨.zero 20⟩ 0
  refine ⟨rfl, _, _, hopen, ?_, ?_⟩
  · refine (fun hholds => ⟨hholds, rfl, ?_⟩) (throughout_iff.1 (by decide))
    have hend := (hverdict _ hholds (by simp)).2 _ rfl
    exact ⟨hend.2.2.1.1 rfl, hend.2.2.2 rfl⟩
  · -- the run is carried out twice, for its moments and for its end
    refine (fun hholds hfull => ⟨hholds, hfull, ?_⟩) (throughout_iff.1 (by decide +kernel))
      (by decide +kernel)
    have hend := (hverdict _ hholds (by simp [served])).2 _ hfull
    exact ⟨hend.2.1 rfl, hend.1.1 rfl⟩

end Swarm

end Torrent
