import Mathlib.Control.Monad.Basic
import Torrent.Proofs.Bytes.Collision
import Torrent.Proofs.Store.Fresh
import Torrent.Proofs.Swarm.Departure
import Torrent.Proofs.Swarm.Sealed

/-!
# What is reported is right

In every moment of a download into an empty directory, a piece that the store
reports can be read back with the length and the digest that the description
gives, unless a task has laid other bytes over it while it was reported.  A
download that says it is full has every piece (`Swarm.integrity`).

To be laid over, a piece must be stored twice, and so it must have gone back to the
queue with its bit set: the resume file could not be rewritten then.
`Swarm.Spares` says that an event puts no failure upon that file behind the bit of
a piece (`Spared.not_overwrites`).  And another content with the same digest must
come for it (`Intact.not_overwrites`).
-/

namespace Torrent

theorem Phase.isMarked_of_writing? {p : Phase} {spec : PieceSpec} {writing : Writing}
    (h : p.writing? = some (spec, writing)) : p.isMarked = writing.isMarked := by
  obtain ⟨s, rfl⟩ := eq_of_writing? h
  rfl

/-- Whether the resume file could not be rewritten, or only in part. -/
def Writing.isSpoiled : Writing → Bool
  | .cutting _ failure => failure.isSome
  | _ => false

theorem Writing.isSpoiled_write (s : Store) (i : PieceIndex) (data : Bytes) :
    (s.write i data).isSpoiled = false := by
  rcases Writing.write_cases s i data with ⟨e, hwrite⟩ | ⟨left, hwrite⟩
  · rw [hwrite]
    rfl
  · rw [hwrite]
    rfl

/-- A step of writing spoils nothing if no failure is put upon the rewriting. -/
theorem Writing.Effect.isSpoiled {fault : Option Fault} {s s' : Store} {t t' : FileTree}
    {w w' : Writing} (h : Effect fault s t w w' s' t')
    (hfault : w.isRewriting = true → fault = none) : w'.isSpoiled = false := by
  cases h with
  | saved =>
      rw [hfault rfl]
      rfl
  | _ => rfl

theorem Writing.isMarked_of_next? {writing : Writing} {c : Chunk} (h : writing.next? = some c) :
    writing.isMarked = false := by
  cases writing <;> first | rfl | cases h

namespace Swarm

variable {d : Descriptor} {s : Store} {w w' : Swarm} {e : Event} {i : PieceIndex}

/-- A download whose books and files are in order. -/
structure Guarded (d : Descriptor) (s : Store) (w : Swarm) : Prop where
  accounted : w.Accounted d (missing d s)
  files : w.Sealed d

theorem Guarded.change (h : w.Guarded d s) (hd : d.Sound) (hchange : Change w e w') :
    w'.Guarded d s :=
  ⟨h.accounted.change (fun _ hspec => index_lt_of_mem_missing hspec) hchange,
    h.files.change hd h.accounted.ledger hchange⟩

/-! ## A resume file that can be rewritten -/

/-- The event puts no failure upon the rewriting of the resume file behind the bit of a piece. -/
def Spares (w : Swarm) (e : Event) (i : PieceIndex) : Prop :=
  ∀ k t spec writing, e.task? = some k → w.tasks[k]? = some t →
    t.phase.writing? = some (spec, writing) → spec.index = i → writing.isRewriting = true →
    e.fault? = none

/-- No failure was met when the resume file was rewritten behind the bit of a piece. -/
def Unspoiled (w : Swarm) (i : PieceIndex) : Prop :=
  ∀ t ∈ w.tasks, ∀ spec writing, t.phase.writing? = some (spec, writing) → spec.index = i →
    writing.isSpoiled = false

theorem Unspoiled.change (h : w.Unspoiled i) (hspares : w.Spares e i) (hchange : Change w e w') :
    w'.Unspoiled i := by
  intro t' ht' spec writing' hwriting hi
  obtain ⟨k, hk⟩ := List.mem_iff_getElem?.1 ht'
  obtain ⟨t, ht, -, hfate⟩ := hchange.fate hk
  have hmem := List.mem_of_getElem? ht
  cases hfate with
  | rested hsame => exact h t hmem spec writing' (hsame ▸ hwriting) hi
  | stopped hfatal hstopped =>
      rw [hstopped] at hwriting
      cases hwriting
  | joined hended hnoticed =>
      rw [hnoticed] at hwriting
      cases hwriting
  | moved he hfatal hmove =>
      cases hmove.usage with
      | rested hstore htree hphase =>
          rcases hphase with hsame | hnone
          · exact h t hmem spec writing' (hsame ▸ hwriting) hi
          · rw [hnone] at hwriting
            cases hwriting
      | read hstep hnone =>
          rw [hnone] at hwriting
          cases hwriting
      | begun hverify hstore htree hbegun =>
          rw [hbegun] at hwriting
          cases hwriting
          exact Writing.isSpoiled_write _ _ _
      | wrote hbefore hafter heffect =>
          rw [hafter] at hwriting
          cases hwriting
          exact heffect.isSpoiled (hspares k t _ _ he ht hbefore hi)

/-- A resume file that is spared can be rewritten. -/
theorem Unspoiled.unharmed (h : w.Unspoiled i) (hspares : w.Spares e i)
    (hchange : Change w e w') : w.Unharmed w' i := by
  rintro k t t' ht ht' ⟨session, spec, n, failure, error, hi, hphase, hphase'⟩
  obtain ⟨u, hu, -, hfate⟩ := hchange.fate ht'
  rw [ht] at hu
  cases hu
  cases hfate with
  | rested hsame =>
      rw [hphase, hphase'] at hsame
      cases hsame
  | stopped hfatal hstopped =>
      rw [hphase'] at hstopped
      cases hstopped
  | joined hended hnoticed =>
      rw [hphase] at hended
      cases hended
  | moved he hfatal hmove =>
      have hwriting : t.phase.writing? = some (spec, .cutting n failure) := by
        rw [hphase]
        rfl
      have hfault := hspares k t _ _ he ht hwriting hi rfl
      have hfailure := h t (List.mem_of_getElem? ht) _ _ hwriting hi
      rw [hphase, hphase', hfault] at hmove
      obtain rfl : failure = none := by simpa [Writing.isSpoiled] using hfailure
      generalize w'.toShared = shared at hmove
      cases hmove with
      | reach hp => cases hp
      | pursued hspec => cases hspec
      | wrote hleft hstep => simp [Writing.step] at hstep

/-- A download in which the resume file could be rewritten behind the bit of a piece.  A failure of
the store may leave the piece in the queue with its bit set, and then no task goes on. -/
structure Spared (d : Descriptor) (s : Store) (i : PieceIndex) (w : Swarm) : Prop where
  accounted : w.Accounted d (missing d s)
  unreported : w.fatal = none → w.Unreported i
  unspoiled : w.Unspoiled i

theorem Spared.change (h : w.Spared d s i) (hspares : w.Spares e i) (hchange : Change w e w') :
    w'.Spared d s i := by
  refine ⟨h.accounted.change (fun _ hspec => index_lt_of_mem_missing hspec) hchange,
    fun hfatal' => ?_, h.unspoiled.change hspares hchange⟩
  have hfatal : w.fatal = none := by
    refine Option.eq_none_iff_forall_ne_some.2 fun error herror => ?_
    have hsome := hchange.fatal_isSome (by rw [herror]; rfl)
    rw [hfatal'] at hsome
    cases hsome
  exact (h.unreported hfatal).change h.accounted.ledger hchange hfatal'
    (h.unspoiled.unharmed hspares hchange)

/-- A task that still writes has not set the bit of its piece, and nobody else has. -/
theorem Spared.not_overwrites (h : w.Spared d s i) : ¬w.Overwrites w' i := by
  rintro ⟨hfatal, hbit, -, k, t, -, spec, writing, c, ht, -, -, hwriting, hi, hnext, -⟩
  have hunmarked := (Phase.isMarked_of_writing? hwriting).trans (Writing.isMarked_of_next? hnext)
  rw [(h.unreported hfatal).claims t (List.mem_of_getElem? ht) spec
    (Phase.claim?_of_writing? hwriting) hi hunmarked] at hbit
  cases hbit

/-! ## The beginning -/

/-- A download that begins has its store at most closed. -/
theorem begin_store (w : Swarm) (now : Nat) (fault : Option Fault) :
    (w.begin_ now fault).tree = w.tree ∧
      ((w.begin_ now fault).store = w.store ∨ (w.begin_ now fault).store = w.store.close) := by
  simp only [begin_]
  split
  next => cases fault <;> exact ⟨rfl, .inr rfl⟩
  next => split <;> exact ⟨rfl, .inl rfl⟩

theorem guarded_begin {tree tree' : FileTree} {root name : List Char}
    (hopen : Store.open_ tree root d name = (.ok s, tree'))
    (hplaces : (Store.placesOf tree root name d).Nodup) (peers : PeerSet) (settings : Settings)
    (localId : PeerId) (now : Nat) (fault : Option Fault) :
    ((seed d s tree' peers settings localId).begin_ now fault).Guarded d s := by
  have hhoused := Store.housed_open hopen hplaces
  obtain ⟨htree, hstore⟩ := begin_store (seed d s tree' peers settings localId) now fault
  obtain ⟨-, -, -, -, -, htasks⟩ :=
    begin_spec (w := seed d s tree' peers settings localId) rfl now fault
  refine ⟨accounted_begin (Store.size_open hopen) tree' peers settings localId now fault, ?_, ?_,
    fun t ht => Phase.sound_of_none ?_⟩
  · rcases hstore with hstore | hstore
    · exact hstore ▸ Store.fits_open hopen
    · exact hstore ▸ (Store.fits_open hopen).of_layout s.layout_close
  · rw [htree]
    rcases hstore with hstore | hstore
    · exact hstore ▸ hhoused
    · exact hstore ▸ hhoused.of_layout s.layout_close (s.handles_close tree')
  · obtain ⟨deadline, hphase⟩ := htasks t ht
    rw [hphase]
    rfl

/-- In the beginning nothing is reported. -/
theorem intact_begin {tree tree' : FileTree} {root name : List Char}
    (hopen : Store.open_ tree root d name = (.ok s, tree'))
    (hempty : ∀ p ∈ Store.placesOf tree root name d, ∀ id, tree.entryAt p ≠ some (.file id))
    (peers : PeerSet) (settings : Settings) (localId : PeerId) (now : Nat)
    (fault : Option Fault) (i : PieceIndex) :
    ((seed d s tree' peers settings localId).begin_ now fault).Intact d i := by
  intro hbit
  have hclear := Store.hasPiece_open hopen (hempty _ (List.mem_cons_self ..)) i
  obtain ⟨-, hstore⟩ := begin_store (seed d s tree' peers settings localId) now fault
  rcases hstore with hstore | hstore
  · rw [hstore] at hbit
    exact absurd (hclear.symm.trans hbit) Bool.false_ne_true
  · rw [hstore] at hbit
    exact absurd (hclear.symm.trans hbit) Bool.false_ne_true

theorem spared_begin {tree tree' : FileTree} {root name : List Char}
    (hopen : Store.open_ tree root d name = (.ok s, tree'))
    (peers : PeerSet) (settings : Settings) (localId : PeerId) (now : Nat)
    (fault : Option Fault) (i : PieceIndex) :
    ((seed d s tree' peers settings localId).begin_ now fault).Spared d s i := by
  refine ⟨accounted_begin (Store.size_open hopen) tree' peers settings localId now fault,
    fun _ => unreported_begin d s tree' peers settings localId now fault i,
    fun t ht spec writing hwriting => ?_⟩
  obtain ⟨-, -, -, -, -, htasks⟩ :=
    begin_spec (w := seed d s tree' peers settings localId) rfl now fault
  obtain ⟨deadline, hphase⟩ := htasks t ht
  rw [hphase] at hwriting
  cases hwriting

/-! ## Integrity -/

/-- A piece that is reported is read back whole. -/
theorem Guarded.readPiece (h : w.Guarded d s) (hd : d.Sound) (hi : i.toNat < d.pieceCount)
    (hintact : w.Intact d i) (hbit : w.store.hasPiece i = true) :
    ∃ data length, (w.store.readPiece w.tree i).1 = some data ∧ d.pieceLen? i = some length ∧
      data.length = length.toNat ∧ d.pieceHashes[i.toNat]? = some (Sha1.digest data) := by
  obtain ⟨hash, hhash, hplaced⟩ := hintact hbit
  obtain ⟨data, hread, hlength, hdigest⟩ :=
    Store.readPiece_of_placed h.files.housed h.files.fits hd hi hbit hplaced
  refine ⟨data, _, hread, hd.pieceLen?_eq hi, ?_, ?_⟩
  · rw [hd.toNat_length, hlength]
  · rw [hhash, hdigest]

/-- A run without a failure put upon any step spares the resume file. -/
theorem spares_of_noFault {events : List Event} (h : ∀ e ∈ events, e.fault? = none)
    (before : List Event) (e : Event) (after : List Event) (heq : events = before ++ e :: after) :
    (w.run before).Spares e i := by
  intro k t spec writing hk ht hwriting hi hrewriting
  exact h e (by rw [heq]; simp)

/-- The integrity of a download into an empty directory, whatever the peers send and in whatever
order the tasks take their turns: a piece that is reported is read back with its length and its
digest as long as no task has laid other bytes over it.  This does not happen if the resume file
could be rewritten behind the bit of the piece, nor if only one content passes its check. -/
theorem integrity {tree tree' : FileTree} {root name : List Char} (hcheck : d.check = .ok ())
    (hcount : d.pieceCount < UInt32.size)
    (hopen : Store.open_ tree root d name = (.ok s, tree'))
    (hplaces : (Store.placesOf tree root name d).Nodup)
    (hempty : ∀ p ∈ Store.placesOf tree root name d, ∀ id, tree.entryAt p ≠ some (.file id))
    (peers : PeerSet) (settings : Settings) (localId : PeerId) (now : Nat)
    (fault : Option Fault) (events : List Event) :
    let start := (seed d s tree' peers settings localId).begin_ now fault
    let w := start.run events
    (∀ i : PieceIndex, i.toNat < d.pieceCount →
      (∀ before e after, events = before ++ e :: after →
        ¬(start.run before).Overwrites ((start.run before).step e) i) →
      w.store.hasPiece i = true →
      ∃ data length, (w.store.readPiece w.tree i).1 = some data ∧ d.pieceLen? i = some length ∧
        data.length = length.toNat ∧ d.pieceHashes[i.toNat]? = some (Sha1.digest data)) ∧
      (∀ i : PieceIndex, d.Settles i ∨ (∀ before e after, events = before ++ e :: after →
          (start.run before).Spares e i) →
        ∀ before e after, events = before ++ e :: after →
          ¬(start.run before).Overwrites ((start.run before).step e) i) ∧
      (w.outcome = some (.ok true) →
        ∀ i : PieceIndex, i.toNat < d.pieceCount → w.store.hasPiece i = true) := by
  intro start w
  have hd := Descriptor.sound_of_check hcheck
  have hguarded : ∀ events, (start.run events).Guarded d s := fun events =>
    run_induction (guarded_begin hopen hplaces peers settings localId now fault)
      (fun _ _ _ hchange hv => hv.change hd hchange) events
  have hintact : ∀ i events, (∀ before e after, events = before ++ e :: after →
      (start.run before).Intact d i →
      ¬(start.run before).Overwrites ((start.run before).step e) i) →
      (start.run events).Intact d i := by
    intro i events hkept
    have hrun : (start.run events).Guarded d s ∧ (start.run events).Intact d i := by
      refine run_moments (P := fun v => v.Guarded d s ∧ v.Intact d i) ?_ ?_
      · exact ⟨hguarded [], intact_begin hopen hempty peers settings localId now fault i⟩
      · rintro before e after heq ⟨hbooks, hbefore⟩
        have hchange := change_step (start.run before) e
        exact ⟨hbooks.change hd hchange, hbefore.change hbooks.files hd hbooks.accounted.ledger
          (hkept before e after heq hbefore) hchange⟩
    exact hrun.2
  refine ⟨fun i hi hkept hbit => ?_, fun i hsafe before e after heq => ?_, fun hfull i hi => ?_⟩
  · refine (hguarded events).readPiece hd hi (hintact i events ?_) hbit
    exact fun before e after heq _ => hkept before e after heq
  · rcases hsafe with hsettles | hspares
    · have hbooks := hguarded before
      refine (hintact i before fun first e' rest _ hfirst => ?_).not_overwrites hbooks.files hd
        hbooks.accounted.ledger hsettles
      have hbooks' := hguarded first
      exact hfirst.not_overwrites hbooks'.files hd hbooks'.accounted.ledger hsettles
    · have hspared : (start.run before).Spared d s i := by
        refine run_moments (P := fun v => v.Spared d s i)
          (spared_begin hopen peers settings localId now fault i) ?_
        intro first e' rest hfirst hbefore
        refine hbefore.change (hspares first e' (rest ++ e :: after) ?_) (change_step _ e')
        rw [heq, hfirst, List.append_assoc, List.cons_append]
      exact hspared.not_overwrites
  · have hledger := (hguarded events).accounted.ledger
    refine Bool.of_not_eq_false fun hbit => ?_
    obtain ⟨spec, hspec, -⟩ := hledger.exists_outstanding
      (grows_begin_run d s tree' peers settings localId now fault events) hd hcount hi hbit
    rw [((hguarded events).accounted.full_iff hfull).1 rfl] at hspec
    cases hspec

/-- One peer has the piece and sends it. -/
theorem integrity_seeder :
    let d : Descriptor := ⟨⟨.zero 20⟩, 1, 1, [Sha1.digest [97]], [⟨"a", 1⟩]⟩
    let events : List Event := served 0 [0x80] [97] 22 ++ [.joined 0, .closed none]
    d.check = .ok () ∧ (Store.placesOf (.empty []) ['t'] ['r'] d).Nodup ∧
      (∀ p ∈ Store.placesOf (.empty []) ['t'] ['r'] d, ∀ id,
        (FileTree.empty []).entryAt p ≠ some (.file id)) ∧
      ∃ s tree, Store.open_ (.empty []) ['t'] d ['r'] = (.ok s, tree) ∧
        let start := (seed d s tree ⟨[⟨⟨.short ⟨127, 0, 0, 1⟩, 1⟩, none⟩]⟩ .standard
          ⟨.zero 20⟩).begin_ 0 none
        (∀ before e after, events = before ++ e :: after → (start.run before).Spares e 0) ∧
        (start.run events).outcome = some (.ok true) ∧
        (start.run events).store.hasPiece 0 = true ∧
        ∃ data length,
          ((start.run events).store.readPiece (start.run events).tree 0).1 = some data ∧
          d.pieceLen? 0 = some length ∧ data.length = length.toNat ∧
          d.pieceHashes[0]? = some (Sha1.digest data) := by
  have hopen : Store.open_ (.empty []) ['t'] ⟨⟨.zero 20⟩, 1, 1, [Sha1.digest [97]], [⟨"a", 1⟩]⟩
    ['r'] = (.ok _, _) := rfl
  have hempty := FileTree.entryAt_empty_ne []
  have hintegrity := integrity rfl (by decide) hopen (by decide) (fun p _ => hempty p)
    ⟨[⟨⟨.short ⟨127, 0, 0, 1⟩, 1⟩, none⟩]⟩ .standard ⟨.zero 20⟩ 0 none
  refine ⟨rfl, by decide, fun p _ => hempty p, _, _, hopen,
    spares_of_noFault (by decide +kernel), ?_⟩
  -- the run is carried out once
  refine (fun hfull => ⟨hfull, ?_⟩) (by decide +kernel)
  obtain ⟨hright, hkept, hall⟩ := hintegrity _
  have hbit := hall hfull 0 (by decide)
  exact ⟨hbit, hright 0 (by decide) (hkept 0 (.inr (spares_of_noFault (by decide +kernel)))) hbit⟩

/-! ## A piece that is laid over -/

/-- What a task has fetched, with the piece it is for. -/
def fetched? (w : Swarm) (k : Nat) : Option (PieceIndex × Bytes) :=
  match w.tasks[k]? with
  | none => none
  | some t =>
    match t.phase with
    | .inSession _ (.fetching a _ _) => if a.isDone then some (a.spec.index, a.buffer) else none
    | _ => none

/-- A task sets out to store what it has fetched. -/
def stores (w : Swarm) (k : Nat) : Swarm :=
  w.move k fun w t =>
    match t.phase with
    | .inSession s (.fetching a _ _) =>
      w.go t s (.storing a.spec (w.store.write a.spec.index a.buffer))
    | _ => (w, t)

/-- What passes the check of its piece is stored. -/
theorem step_of_fetched {k : Nat} {data : Bytes} {spec : PieceSpec} (h : w.Guarded d s)
    (hfatal : w.fatal = none) (hfetched : w.fetched? k = some (i, data))
    (hspec : d.piece? i = some spec) (hverify : spec.verify data = true) (now : Nat)
    (fault : Option Fault) : w.step (.proceeded k now fault) = w.stores k := by
  simp only [fetched?] at hfetched
  split at hfetched
  next => cases hfetched
  next t ht =>
    split at hfetched
    next session a held deadline hphase =>
      split at hfetched
      next hdone =>
        cases hfetched
        have hpiece := h.accounted.ledger.piece?_of_claim (List.mem_of_getElem? ht)
          (show t.phase.claim? = some a.spec by rw [hphase]; rfl)
        rw [hspec] at hpiece
        cases hpiece
        simp only [step, advance, stores, move, ht, hphase, Shared.proceed, Shared.fetch, hfatal,
          hdone, hverify, Option.isSome_none, Bool.false_eq_true, if_false, if_true]
      next => cases hfetched
    next => cases hfetched

theorem run_of_fetched {k : Nat} {data : Bytes} {spec : PieceSpec} {before : List Event}
    (h : (w.run before).Guarded d s)
    (hfetched : (w.run before).fatal.isNone = true ∧ (w.run before).fetched? k = some (i, data))
    (hspec : d.piece? i = some spec) (hverify : spec.verify data = true) (now : Nat)
    (fault : Option Fault) (behind : List Event) :
    w.run (before ++ .proceeded k now fault :: behind) = ((w.run before).stores k).run behind := by
  rw [run_append]
  exact congrArg (run · behind) (step_of_fetched h (Option.isNone_iff_eq_none.1 hfetched.1)
    hfetched.2 hspec hverify now fault)

/-- One piece, whose last block has a file of its own. -/
def twin : Descriptor :=
  ⟨⟨.zero 20⟩, 320, 320, [Sha1.digest Sha1.first], [⟨"a", 256⟩, ⟨"b", 64⟩]⟩

/-- One of them sends a content for it, and its task fetches this. -/
def fetching (k : Nat) (content : Bytes) : List Event := served k [0x80] content 9

/-- The task that writes a piece sets the bit of it, but cannot write the resume file. -/
def failing : List Event :=
  List.replicate 6 (.proceeded 0 0 none) ++
    [.proceeded 0 0 (some ⟨0, .other "No space left on device (os error 28)"⟩)] ++
    List.replicate 2 (.proceeded 0 0 none)

/-- The resume file cannot be rewritten behind the bit of a piece, and the piece goes back to the
queue.  Another peer sends another content with its digest, and the first file of it is laid over
the piece, which is reported all the time. -/
theorem reported_overwritten :
    twin.check = .ok () ∧ (Store.placesOf (.empty []) ['t'] ['r'] twin).Nodup ∧
      (∀ p ∈ Store.placesOf (.empty []) ['t'] ['r'] twin, ∀ id,
        (FileTree.empty []).entryAt p ≠ some (.file id)) ∧
      ∃ s tree, Store.open_ (.empty []) ['t'] twin ['r'] = (.ok s, tree) ∧
        let w := ((seed twin s tree twoPeers .standard ⟨.zero 20⟩).begin_ 0 none).run
          (fetching 0 Sha1.first ++ .proceeded 0 0 none ::
            (failing ++ fetching 1 Sha1.second ++ .proceeded 1 0 none ::
              List.replicate 2 (.proceeded 1 0 none)))
        w.store.hasPiece 0 = true ∧ ∃ data, (w.store.readPiece w.tree 0).1 = some data ∧
          data.length = 320 ∧ twin.pieceHashes[0]? ≠ some (Sha1.digest data) := by
  have hplaces : (Store.placesOf (.empty []) ['t'] ['r'] twin).Nodup := by decide
  have hopen : Store.open_ (.empty []) ['t'] twin ['r'] = (.ok _, _) := rfl
  have hguarded := fun events => run_induction
    (guarded_begin hopen hplaces twoPeers .standard ⟨.zero 20⟩ 0 none)
    (fun _ _ _ hchange hv => hv.change (Descriptor.sound_of_check rfl) hchange) events
  have hspec : twin.piece? 0 = some ⟨0, Sha1.digest Sha1.first, 320⟩ := rfl
  have hfirst : (PieceSpec.mk 0 (Sha1.digest Sha1.first) 320).verify Sha1.first = true := by
    rw [PieceSpec.verify, beq_self_eq_true, Bool.and_true]
    decide +kernel
  have hsecond : (PieceSpec.mk 0 (Sha1.digest Sha1.first) 320).verify Sha1.second = true := by
    have hsame := Sha1.digest_twin []
    rw [List.append_nil, List.append_nil] at hsame
    rw [PieceSpec.verify, hsame, beq_self_eq_true, Bool.and_true]
    decide +kernel
  -- both contents pass the check, which is not evaluated in the run
  have hstored := run_of_fetched (k := 0) (hguarded (fetching 0 Sha1.first)) (by decide +kernel)
    hspec hfirst 0 none
  have hrun := (hstored _).trans (run_of_fetched (k := 1)
    (hstored (failing ++ fetching 1 Sha1.second) ▸ hguarded _) (by decide +kernel) hspec hsecond 0
    none (List.replicate 2 (.proceeded 1 0 none)))
  refine ⟨rfl, hplaces, fun p _ => FileTree.entryAt_empty_ne [] p, _, _, hopen, ?_⟩
  intro w
  rw [show w = _ from hrun]
  refine ⟨by decide +kernel, Sha1.second.take 256 ++ Sha1.first.drop 256, by decide +kernel,
    by decide +kernel, fun heq => ?_⟩
  exact Sha1.digest_ne_of_mixed (Option.some.inj heq).symm

end Torrent.Swarm
