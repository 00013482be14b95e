import Torrent.Proofs.Swarm.Failure
import Torrent.Proofs.Swarm.Written

/-!
# Who writes a piece

Of all that a download does, only the writing of a piece changes files and the
bitmap (`Swarm.Change.writes`), and only the task that holds a piece writes it.
No two tasks hold the same piece, and a piece that the store had in the beginning
is held by none.

A task that gave up its piece never comes back to it (`Swarm.over_run`), so what
came too late is not written.  A piece whose writing ended well is held until it
is complete, and from then on it is not outstanding (`Swarm.Done`).  So its
writing ends well once (`Swarm.exclusive_writes`).
-/

namespace Torrent

/-- Opening files to read changes no file that is there. -/
theorem Reading.step_extends {r r' : Reading} {s s' : Store} {t t' : FileTree}
    (h : r.step s t = (r', s', t')) : t.Extends t' := by
  simp only [step] at h
  split at h
  next =>
    cases h
    exact .refl t
  next =>
    split at h
    next hopen =>
      cases h
      exact Store.openSlot_extends hopen
    next hopen =>
      cases h
      exact Store.openSlot_extends hopen
  next =>
    cases h
    exact .refl t
  next =>
    split at h
    next =>
      cases h
      exact .refl t
    next =>
      cases h
      exact .refl t
  next =>
    cases h
    exact .refl t

/-- The piece whose writing has just ended without a failure. -/
def Phase.stored? : Phase → Option PieceIndex
  | .inSession _ (.storing spec (.finished (.ok ()))) => some spec.index
  | _ => none

theorem Phase.stored?_eq_some_iff {p : Phase} {i : PieceIndex} :
    p.stored? = some i ↔ ∃ spec, p.writing? = some (spec, .finished (.ok ())) ∧ spec.index = i := by
  constructor
  · intro h
    simp only [stored?] at h
    split at h
    next spec =>
      cases h
      exact ⟨spec, rfl, rfl⟩
    next => cases h
  · rintro ⟨spec, hwriting, rfl⟩
    obtain ⟨s, rfl⟩ := eq_of_writing? hwriting
    rfl

theorem Phase.writing?_of_isOver {p : Phase} (h : p.isOver = true) : p.writing? = none := by
  cases p with
  | inSession s work =>
      cases work with
      | leaving d => rfl
      | _ => cases h
  | _ => rfl

theorem Phase.claim?_of_isOver {p : Phase} (h : p.isOver = true) : p.claim? = none := by
  cases p with
  | inSession s work =>
      cases work with
      | leaving d => rfl
      | _ => cases h
  | _ => rfl

namespace Move

variable {r : PeerRecord} {fault : Option Fault} {w w' : Shared} {p p' : Phase}

/-- A move that changes a file or the bitmap is a step of the writing of a piece. -/
theorem writes (h : Move r fault w p w' p')
    (hchanged : (∃ id, w'.tree.content id ≠ w.tree.content id) ∨
      w'.store.completed ≠ w.store.completed) :
    ∃ spec writing writing', p.writing? = some (spec, writing) ∧
      p'.writing? = some (spec, writing') := by
  have hidle : w.tree.Extends w'.tree → w'.store.completed = w.store.completed → False := by
    intro hextends hcompleted
    rcases hchanged with ⟨id, hid⟩ | hbits
    · exact hid (hextends.content id)
    · exact hbits hcompleted
  cases h.usage with
  | rested hstore htree =>
      exact (hidle (htree.symm ▸ .refl _) (congrArg Store.completed hstore)).elim
  | read hstep =>
      exact (hidle (Reading.step_extends hstep) (Reading.step_store hstep).2.1).elim
  | begun hverify hstore htree =>
      exact (hidle (htree.symm ▸ .refl _) (congrArg Store.completed hstore)).elim
  | wrote hbefore hafter => exact ⟨_, _, _, hbefore, hafter⟩

/-- A task that has nothing more to say does not begin anew. -/
theorem isOver (h : Move r fault w p w' p') (hp : p.isOver = true) : p'.isOver = true := by
  cases p with
  | gone result joined =>
      rw [h.from_gone.2]
      rfl
  | inSession s work =>
      cases work with
      | leaving d =>
          cases h with
          | reach hopening => cases hopening
          | opened s hopening => cases hopening
          | pursued hspec => cases hspec
          | _ => rfl
      | _ => cases hp
  | _ => cases hp

/-- A task whose writing ended well goes on to tell of the piece. -/
theorem of_stored {s : Session} {spec : PieceSpec}
    (h : Move r fault w (.inSession s (.storing spec (.finished (.ok ())))) w' p') :
    p' = .inSession s (.storing spec (.finished (.ok ()))) ∨
      p' = .inSession s (.telling spec.index) := by
  cases h with
  | stay => exact .inl rfl
  | completed => exact .inr rfl
  | reach hopening => cases hopening
  | opened s hopening => cases hopening
  | lost hopening => cases hopening
  | pursued hspec => cases hspec
  | failed e hspec => cases hspec
  | wrote hleft => cases hleft

end Move

namespace Swarm

variable {d : Descriptor} {pieces : List PieceSpec} {w w' start : Swarm} {ev : Event}
  {i : PieceIndex} {k : Nat}

/-- An event that changes a file or the bitmap is a step of the writing of a piece. -/
theorem Change.writes (h : Change w ev w')
    (hchanged : (∃ id, w'.tree.content id ≠ w.tree.content id) ∨
      w'.store.completed ≠ w.store.completed) :
    ∃ k t t' spec writing writing', ev.task? = some k ∧ w.tasks[k]? = some t ∧
      w'.tasks[k]? = some t' ∧ t.phase.writing? = some (spec, writing) ∧
      t'.phase.writing? = some (spec, writing') := by
  have hidle : w'.tree = w.tree → w'.store.completed = w.store.completed → False := by
    intro htree hcompleted
    rcases hchanged with ⟨id, hid⟩ | hbits
    · exact hid (by rw [htree])
    · exact hbits hcompleted
  cases h with
  | @moved k t t' shared he ht hfatal hrecord hmove =>
      obtain ⟨spec, writing, writing', hbefore, hafter⟩ := hmove.writes hchanged
      exact ⟨k, t, t', spec, writing, writing', he, ht,
        List.getElem?_set_self (List.getElem?_eq_some_iff.1 ht).1, hbefore, hafter⟩
  | @stopped k t =>
      obtain ⟨-, hcompleted, -, htree⟩ := giveBack_surrender t.phase w.toShared
      exact (hidle htree hcompleted).elim
  | _ => exact (hidle rfl rfl).elim

/-- A task that has nothing more to say has nothing more to say later. -/
theorem over_run {t : Task} (ht : w.tasks[k]? = some t) (hover : t.phase.isOver = true)
    (events : List Event) :
    ∃ t', (w.run events).tasks[k]? = some t' ∧ t'.phase.isOver = true := by
  refine run_induction (P := fun v => ∃ t, v.tasks[k]? = some t ∧ t.phase.isOver = true)
    ⟨t, ht, hover⟩ ?_ events
  rintro v ev v' hchange ⟨t, ht, hover⟩
  obtain ⟨t', ht', -⟩ := hchange.task ht
  obtain ⟨u, hu, -, hfate⟩ := hchange.fate ht'
  obtain rfl := Option.some.inj (hu.symm.trans ht)
  refine ⟨t', ht', ?_⟩
  cases hfate with
  | rested hphase => exact hphase ▸ hover
  | moved he hfatal hmove => exact hmove.isOver hover
  | stopped hfatal hphase =>
      rw [hphase]
      rfl
  | joined hended hphase =>
      rw [hphase]
      rfl

/-! ## Writing that ended well -/

/-- The task with a number has written a piece without a failure. -/
def Stored (w : Swarm) (k : Nat) (i : PieceIndex) : Prop :=
  ∃ t, w.tasks[k]? = some t ∧ t.phase.stored? = some i

instance (w : Swarm) (k : Nat) (i : PieceIndex) : Decidable (w.Stored k i) :=
  decidable_of_iff _ Option.bind_eq_some_iff

/-- The writing of a piece by the task with a number ends without a failure, between two moments. -/
def Stores (w w' : Swarm) (k : Nat) (i : PieceIndex) : Prop := ¬w.Stored k i ∧ w'.Stored k i

instance (w w' : Swarm) (k : Nat) (i : PieceIndex) : Decidable (w.Stores w' k i) :=
  inferInstanceAs (Decidable (_ ∧ _))

/-- A piece whose writing ends well was held and being written, and no failure of the store was
known. -/
theorem Stores.writing (h : w.Stores w' k i) (hchange : Change w ev w') :
    w.fatal = none ∧ ∃ t spec writing, w.tasks[k]? = some t ∧
      t.phase.writing? = some (spec, writing) ∧ spec.index = i := by
  obtain ⟨hbefore, t', ht', hstored⟩ := h
  obtain ⟨t, ht, -, hfate⟩ := hchange.fate ht'
  obtain ⟨spec, hwriting', rfl⟩ := Phase.stored?_eq_some_iff.1 hstored
  have hold : t.phase.writing? ≠ some (spec, .finished (.ok ())) := fun hwriting =>
    hbefore ⟨t, ht, Phase.stored?_eq_some_iff.2 ⟨spec, hwriting, rfl⟩⟩
  cases hfate with
  | rested hphase => exact absurd (hphase ▸ hwriting') hold
  | stopped hfatal hphase =>
      rw [hphase] at hwriting'
      cases hwriting'
  | joined hended hphase =>
      rw [hphase] at hwriting'
      cases hwriting'
  | moved he hfatal hmove =>
      rcases hmove.writing?_cases hwriting' with
        hsame | ⟨data, -, -, hwrite⟩ | ⟨writing, hwriting, -⟩
      · exact absurd hsame hold
      · rcases Writing.write_cases w.store spec.index data with ⟨e, hrefused⟩ | ⟨left, hplacing⟩
        · cases hwrite.trans hrefused
        · cases hwrite.trans hplacing
      · exact ⟨hfatal, t, spec, writing, ht, hwriting, rfl⟩

/-- The writing of a piece does not end well any more: a failure of the store is known, the piece is
not outstanding, or its writing has ended well and it is still held. -/
def Done (w : Swarm) (i : PieceIndex) : Prop :=
  w.fatal.isSome = true ∨ i ∉ w.outstanding.map PieceSpec.index ∨ ∃ k, w.Stored k i

theorem Done.change (hpieces : ∀ spec ∈ pieces, spec.index.toNat < d.pieceCount)
    (hledger : w.Ledger d pieces) (h : w.Done i) (hchange : Change w ev w') : w'.Done i := by
  rcases h with hfatal | hgone | ⟨k, t, ht, hstored⟩
  · exact .inl (hchange.fatal_isSome hfatal)
  · refine .inr (.inl fun hmem => ?_)
    obtain ⟨spec, hspec, rfl⟩ := List.mem_map.1 hmem
    exact hgone (List.mem_map_of_mem (hledger.outstanding_change hpieces hchange hspec))
  obtain ⟨t', ht', -⟩ := hchange.task ht
  obtain ⟨u, hu, -, hfate⟩ := hchange.fate ht'
  obtain rfl := Option.some.inj (hu.symm.trans ht)
  obtain ⟨spec, hwriting, rfl⟩ := Phase.stored?_eq_some_iff.1 hstored
  obtain ⟨session, hphase⟩ := Phase.eq_of_writing? hwriting
  cases hfate with
  | rested hsame => exact .inr (.inr ⟨k, t', ht', hsame ▸ hstored⟩)
  | stopped hfatal => exact .inl (hchange.fatal_isSome hfatal)
  | joined hended =>
      rw [hended] at hwriting
      cases hwriting
  | moved he hfatal hmove =>
      rw [hphase] at hmove
      rcases hmove.of_stored with hsame | htelling
      · exact .inr (.inr ⟨k, t', ht', by rw [hsame]; rfl⟩)
      · exact .inr (.inl
          (hledger.not_outstanding_of_completed hpieces hchange ht ht' hphase htelling))

theorem Done.run (hpieces : ∀ spec ∈ pieces, spec.index.toNat < d.pieceCount)
    (hledger : w.Ledger d pieces) (h : w.Done i) (events : List Event) : (w.run events).Done i := by
  have hboth : (w.run events).Ledger d pieces ∧ (w.run events).Done i := by
    refine run_induction (P := fun v => v.Ledger d pieces ∧ v.Done i) ⟨hledger, h⟩ ?_ events
    rintro v ev v' hchange ⟨hv, hdone⟩
    exact ⟨hv.change hpieces hchange, hdone.change hpieces hv hchange⟩
  exact hboth.2

/-- What is done is not done once more. -/
theorem Done.not_stores (h : w.Done i) (hledger : w.Ledger d pieces) (hchange : Change w ev w')
    (k : Nat) : ¬w.Stores w' k i := by
  intro hstores
  obtain ⟨hfatal, t, spec, writing, ht, hwriting, rfl⟩ := hstores.writing hchange
  have hclaim := Phase.claim?_of_writing? hwriting
  rcases h with hsome | hgone | ⟨j, hstored⟩
  · rw [hfatal] at hsome
    cases hsome
  · refine hgone (List.mem_map_of_mem ?_)
    exact Ledger.claim_mem_outstanding (List.mem_of_getElem? ht) hclaim
  · by_cases hjk : j = k
    · exact hstores.1 (hjk ▸ hstored)
    · obtain ⟨u, hu, hdone⟩ := hstored
      obtain ⟨x, hwritten, hindex⟩ := Phase.stored?_eq_some_iff.1 hdone
      exact hledger.index_ne_of_claims hjk hu ht (Phase.claim?_of_writing? hwritten) hclaim hindex

/-- A task that ends its session without having stored its piece has put it back. -/
theorem Change.returned (h : Change w ev w') {t t' : Task} {spec : PieceSpec}
    (ht : w.tasks[k]? = some t) (hclaim : t.claim? = some spec) (ht' : w'.tasks[k]? = some t')
    (hover : t'.phase.isOver = true) : spec ∈ w'.queue.pending := by
  rcases h.claim_kept ht hclaim ht' with hkept | ⟨session, -, htelling⟩ | hpending
  · rw [Task.claim?_eq, Phase.claim?_of_isOver hover] at hkept
    cases hkept
  · rw [htelling] at hover
    cases hover
  · exact hpending

/-- Who writes in a download, whatever the peers and the files do and in whatever order the tasks
take their turns.  Files and the bitmap change only by the writing of a piece.  A task that writes a
piece holds it, nobody else holds it and it does not wait, the store did not have it in the
beginning, and the last thing that the task did before is to find that its content has the digest.
A task that leaves with its piece puts it back and writes nothing any more.  Once the writing of a
piece has ended without a failure, it never does so again. -/
theorem exclusive_writes {s : Store} {tree tree' : FileTree} {root name : List Char}
    (hopen : Store.open_ tree root d name = (.ok s, tree')) (peers : PeerSet)
    (settings : Settings) (localId : PeerId) (now : Nat) (fault : Option Fault) :
    let start := (seed d s tree' peers settings localId).begin_ now fault
    (∀ before ev,
      ((∃ id, (start.run (before ++ [ev])).tree.content id ≠ (start.run before).tree.content id) ∨
        (start.run (before ++ [ev])).store.completed ≠ (start.run before).store.completed) →
      ∃ k t t' spec writing writing', ev.task? = some k ∧
        (start.run before).tasks[k]? = some t ∧ (start.run (before ++ [ev])).tasks[k]? = some t' ∧
        t.phase.writing? = some (spec, writing) ∧ t'.phase.writing? = some (spec, writing')) ∧
    (∀ events (k : Nat) t spec writing, (start.run events).tasks[k]? = some t →
      t.phase.writing? = some (spec, writing) →
      (t.claim? = some spec ∧ writing.Tracks spec.index (start.run events).store) ∧
      (∀ x ∈ (start.run events).queue.pending, x.index ≠ spec.index) ∧
      (∀ (j : Nat) u x, j ≠ k → (start.run events).tasks[j]? = some u → u.claim? = some x →
        x.index ≠ spec.index) ∧
      s.hasPiece spec.index = false ∧
      ∃ front data, start.deeds k events = front ++ [.checks spec data] ∧
        spec.verify data = true) ∧
    (∀ before ev after (k : Nat) t t' spec, (start.run before).tasks[k]? = some t →
      t.claim? = some spec → (start.run (before ++ [ev])).tasks[k]? = some t' →
      t'.phase.isOver = true →
      spec ∈ (start.run (before ++ [ev])).queue.pending ∧
      ∃ u, (start.run (before ++ ev :: after)).tasks[k]? = some u ∧ u.phase.writing? = none) ∧
    ∀ before ev between ev' k k' i,
      (start.run before).Stores (start.run (before ++ [ev])) k i →
      ¬(start.run (before ++ ev :: between)).Stores
        (start.run (before ++ ev :: between ++ [ev'])) k' i := by
  intro start
  have hpieces : ∀ spec ∈ missing d s, spec.index.toNat < d.pieceCount :=
    fun spec hspec => index_lt_of_mem_missing hspec
  have hledger : ∀ events, (start.run events).Ledger d (missing d s) := fun events =>
    (ledger_begin (Store.size_open hopen) tree' peers settings localId now fault).run hpieces events
  refine ⟨fun before ev hchanged => ?_, fun events k t spec writing ht hwriting => ?_,
    fun before ev after k t t' spec ht hclaim ht' hover => ?_,
    fun before ev between ev' k k' i hstores => ?_⟩
  · rw [run_concat] at hchanged ⊢
    exact (change_step _ ev).writes hchanged
  · have hclaim := Phase.claim?_of_writing? hwriting
    have hmem := List.mem_of_getElem? ht
    have hknown := (hledger events).known_of_claim hmem hclaim
    obtain ⟨session, hphase⟩ := Phase.eq_of_writing? hwriting
    have htracked := (hledger events).tracked t hmem
    rw [hphase] at htracked
    refine ⟨⟨t.claim?_eq.trans hclaim, htracked⟩, fun x hx => ?_, fun j u x hne hu hx => ?_,
      (mem_missing.1 hknown).2.1, ?_⟩
    · exact (hledger events).index_ne_of_pending hx hmem hclaim
    · rw [Task.claim?_eq] at hx
      exact (hledger events).index_ne_of_claims hne hu ht hx hclaim
    · have hrecounts :=
        recounts_run (Store.size_open hopen) tree' peers settings localId now fault k events
      have hfollows := (hrecounts.traced t ht).follows
      rw [hphase] at hfollows
      exact hfollows.2.2.2
  · rw [run_concat] at ht' ⊢
    refine ⟨(change_step _ ev).returned ht hclaim ht' hover, ?_⟩
    obtain ⟨u, hu, hlast⟩ := over_run ht' hover after
    rw [← run_concat, ← run_append, List.append_assoc, List.singleton_append] at hu
    exact ⟨u, hu, Phase.writing?_of_isOver hlast⟩
  · have hdone : (start.run (before ++ [ev])).Done i := .inr (.inr ⟨k, hstores.2⟩)
    have hlater := hdone.run hpieces (hledger _) between
    rw [← run_append, List.append_assoc, List.singleton_append] at hlater
    rw [run_concat]
    exact hlater.not_stores (hledger _) (change_step _ ev') k'

/-- The deadline of a task passes behind the last byte of its piece.  A second task stores it. -/
theorem exclusive_writes_late_piece :
    let d : Descriptor := ⟨⟨.zero 20⟩, 1, 1, [Sha1.digest [97]], [⟨"a", 1⟩]⟩
    let spec : PieceSpec := ⟨0, Sha1.digest [97], 1⟩
    let peer (port : UInt16) : PeerRecord := ⟨⟨.short ⟨127, 0, 0, 1⟩, port⟩, none⟩
    let heard := (Handshake.ours ⟨.zero 20⟩ ⟨.zero 20⟩).encode ++
      Frame.encode (.bitfield [0x80]) ++ Frame.encode .unchoke ++ Frame.encode (.piece 0 0 [97])
    let before : List Event :=
      [.reached 0 0 none, .arrived 0 heard] ++ List.replicate 9 (.proceeded 0 0 none)
    let between : List Event :=
      [.reached 1 0 none, .arrived 1 heard] ++ List.replicate 15 (.proceeded 1 0 none)
    ∃ s tree, Store.open_ (.empty []) ['t'] d ['r'] = (.ok s, tree) ∧
      let start := (seed d s tree ⟨[peer 1, peer 2]⟩ .standard ⟨.zero 20⟩).begin_ 0 none
      let late := start.run (before ++ .clock 0 30000 :: between)
      spec ∈ (start.run (before ++ [.clock 0 30000])).queue.pending ∧
        (∃ t, late.tasks[0]? = some t ∧ t.phase.writing? = none) ∧
        late.Stores (late.step (.proceeded 1 0 none)) 1 0 ∧
        ∀ events ev k, ¬(start.run (before ++ .clock 0 30000 :: between ++
            .proceeded 1 0 none :: events)).Stores
          (start.run (before ++ .clock 0 30000 :: between ++
            .proceeded 1 0 none :: events ++ [ev])) k 0 := by
  intro d spec peer heard before between
  have hopen : Store.open_ (.empty []) ['t'] ⟨⟨.zero 20⟩, 1, 1, [Sha1.digest [97]], [⟨"a", 1⟩]⟩
    ['r'] = (.ok _, _) := rfl
  refine ⟨_, _, hopen, ?_⟩
  intro start late
  obtain ⟨-, -, hreturned, honce⟩ :=
    exclusive_writes hopen ⟨[peer 1, peer 2]⟩ .standard ⟨.zero 20⟩ 0 none
  have hstores : late.Stores (late.step (.proceeded 1 0 none)) 1 0 := by decide +kernel
  have hheld : (start.run before).tasks[0]?.map Task.claim? = some (some spec) := by decide +kernel
  have hlate : (start.run (before ++ [.clock 0 30000])).tasks[0]?.map (·.phase.isOver) =
      some true := by
    decide +kernel
  obtain ⟨t, ht, hclaim⟩ := Option.map_eq_some_iff.1 hheld
  obtain ⟨t', ht', hover⟩ := Option.map_eq_some_iff.1 hlate
  obtain ⟨hpending, hidle⟩ := hreturned before _ between 0 t t' spec ht hclaim ht' hover
  -- it is the start that is compared, not the queue that comes of it
  have hqueue : ∀ v : Swarm, spec ∈ (v.run (before ++ [.clock 0 30000])).queue.pending →
      v = start → spec ∈ (start.run (before ++ [.clock 0 30000])).queue.pending := by
    rintro v hmem rfl
    exact hmem
  refine ⟨hqueue _ hpending rfl, hidle, hstores, fun events ev k => ?_⟩
  refine honce (before ++ .clock 0 30000 :: between) (.proceeded 1 0 none) events ev 1 k 0 ?_
  rw [run_concat]
  exact hstores

end Swarm

end Torrent
