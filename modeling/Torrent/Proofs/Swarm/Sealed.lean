import Torrent.Proofs.Store.Reading
import Torrent.Proofs.Swarm.Unreported

/-!
# What is reported stays

A piece on its way into its files has been checked before (`Swarm.Sealed`), and
when its bit is set it lies there, with the digest that the description gives for
it (`Swarm.Intact`).  A step of one task touches the piece of that task only, so
what is reported stays as long as no task lays other bytes over it
(`Intact.change`).

`Swarm.Overwrites` is such a step.  Where only one content passes the check of a
piece (`Descriptor.Settles`), there is none for that piece
(`Intact.not_overwrites`).

`Usage` is all that matters of a move for the files.
-/

namespace Torrent

/-! ## Writing by tasks -/

/-- The piece that a task in this phase is storing, and how far it is. -/
def Phase.writing? : Phase → Option (PieceSpec × Writing)
  | .inSession _ (.storing spec writing) => some (spec, writing)
  | _ => none

/-- The piece that a task stores is in order. -/
def Phase.Sound (s : Store) (t : FileTree) (p : Phase) : Prop :=
  ∀ spec writing, p.writing? = some (spec, writing) → writing.Sound s t spec.index spec.hash

theorem Phase.eq_of_writing? {p : Phase} {spec : PieceSpec} {writing : Writing}
    (h : p.writing? = some (spec, writing)) : ∃ s, p = .inSession s (.storing spec writing) := by
  simp only [writing?] at h
  split at h
  next s _ _ =>
    cases h
    exact ⟨s, rfl⟩
  next => cases h

theorem Phase.claim?_of_writing? {p : Phase} {spec : PieceSpec} {writing : Writing}
    (h : p.writing? = some (spec, writing)) : p.claim? = some spec := by
  obtain ⟨s, rfl⟩ := eq_of_writing? h
  rfl

theorem Phase.sound_of_none {p : Phase} {s : Store} {t : FileTree} (h : p.writing? = none) :
    p.Sound s t := by
  intro spec writing hwriting
  rw [h] at hwriting
  cases hwriting

theorem Phase.writing?_of_isOpening {p : Phase} (h : p.isOpening = true) : p.writing? = none := by
  cases p <;> first | rfl | cases h

theorem Work.writing?_of_pursued? {s : Session} {work : Work} {spec : PieceSpec}
    (h : work.pursued? = some spec) : (Phase.inSession s work).writing? = none := by
  cases work <;> first | rfl | cases h

/-- What a move does with the store and the files. -/
inductive Usage (fault : Option Fault) (w : Shared) (p : Phase) (w' : Shared) (p' : Phase) : Prop
  /-- They are left alone, and no piece is newly stored. -/
  | rested (hstore : w'.store = w.store) (htree : w'.tree = w.tree)
    (hwriting : p'.writing? = p.writing? ∨ p'.writing? = none)
  | read {reading reading' : Reading}
    (hstep : reading.step w.store w.tree = (reading', w'.store, w'.tree))
    (hwriting : p'.writing? = none)
  | begun {spec : PieceSpec} {data : Bytes} (hverify : spec.verify data = true)
    (hstore : w'.store = w.store) (htree : w'.tree = w.tree)
    (hwriting : p'.writing? = some (spec, w.store.write spec.index data))
  | wrote {spec : PieceSpec} {writing writing' : Writing}
    (hbefore : p.writing? = some (spec, writing))
    (hafter : p'.writing? = some (spec, writing'))
    (heffect : Writing.Effect fault w.store w.tree writing writing' w'.store w'.tree)

theorem Move.usage {r : PeerRecord} {fault : Option Fault} {w w' : Shared} {p p' : Phase}
    (h : Move r fault w p w' p') : Usage fault w p w' p' := by
  cases h with
  | stay => exact .rested rfl rfl (.inl rfl)
  | reach hp hp' => exact .rested rfl rfl (.inr (Phase.writing?_of_isOpening hp'))
  | pursued hspec hspec' => exact .rested rfl rfl (.inr (Work.writing?_of_pursued? hspec'))
  | read hstep => exact .read hstep rfl
  | fetched hverify => exact .begun hverify rfl rfl rfl
  | wrote hleft hstep => exact .wrote rfl rfl (Writing.step_effect hstep)
  | _ => exact .rested rfl rfl (.inr rfl)

/-! ## Contents that pass a check -/

/-- Only one content passes the check of a piece. -/
def Descriptor.Settles (d : Descriptor) (i : PieceIndex) : Prop :=
  ∀ spec, d.piece? i = some spec → ∀ data data' : Bytes,
    spec.verify data = true → spec.verify data' = true → data = data'

/-- What is laid as a piece and has its digest passes its check. -/
theorem Store.Laid.verify {d : Descriptor} {s : Store} {i : PieceIndex} {spec : PieceSpec}
    {data : Bytes} {gs : List Segment} (h : s.Laid i data gs) (hfits : s.Fits d) (hd : d.Sound)
    (hspec : d.piece? i = some spec) (hdigest : Sha1.digest data = spec.hash) :
    spec.verify data = true := by
  have hlength := h.length_eq hfits hd
  have hsame := (Descriptor.length_of_piece? hspec).symm.trans (hd.pieceLen?_eq (h.lt hfits))
  rw [PieceSpec.verify, Bool.and_eq_true, beq_iff_eq, beq_iff_eq, Option.some.inj hsame,
    hd.toNat_length]
  exact ⟨hlength, hdigest⟩

namespace Swarm

variable {d : Descriptor} {w w' : Swarm} {e : Event} {k : Nat} {t t' : Task} {i : PieceIndex}

/-! ## Pieces on their way -/

/-- Every piece that is being stored is on its way into its files. -/
structure Sealed (d : Descriptor) (w : Swarm) : Prop where
  fits : w.store.Fits d
  housed : w.store.Housed w.tree
  sound : ∀ t ∈ w.tasks, t.phase.Sound w.store w.tree

/-- A task that is stopped gives back its piece and the resume file. -/
theorem giveBack_surrender (p : Phase) (w : Shared) :
    let w' := Shared.giveBack { w with store := p.surrender w.store } p.claim?
    w'.store.layout = w.store.layout ∧ w'.store.completed = w.store.completed ∧
      w'.store.slots = w.store.slots ∧ w'.tree = w.tree := by
  have hstore : ∃ rewriting, p.surrender w.store = { w.store with rewriting := rewriting } := by
    simp only [Phase.surrender]
    split
    next s spec writing => cases writing <;> exact ⟨_, rfl⟩
    next => exact ⟨_, rfl⟩
  obtain ⟨rewriting, hstore⟩ := hstore
  rw [hstore]
  cases p.claim? <;> exact ⟨rfl, rfl, rfl, rfl⟩

namespace Sealed

/-- A change leaves the bitmap and all that is in the files alone, or it is a step of writing. -/
theorem files (h : w.Sealed d) (hchange : Change w e w') :
    (w'.store.layout = w.store.layout ∧ w'.store.completed = w.store.completed ∧
        w.tree.Extends w'.tree) ∨
      w.fatal = none ∧ ∃ (k : Nat) (t t' : Task) (spec : PieceSpec) (writing writing' : Writing),
        w.tasks[k]? = some t ∧ w'.tasks[k]? = some t' ∧
        t.phase.writing? = some (spec, writing) ∧ t'.phase.writing? = some (spec, writing') ∧
        Writing.Effect e.fault? w.store w.tree writing writing' w'.store w'.tree := by
  have hrefl := FileTree.Extends.refl w.tree
  cases hchange with
  | stopped =>
      obtain ⟨hlayout, hcompleted, -, htree⟩ := giveBack_surrender _ w.toShared
      exact .inl ⟨hlayout, hcompleted, htree.symm ▸ hrefl⟩
  | finished => exact .inl ⟨w.store.layout_close, rfl, hrefl⟩
  | @moved k t t' shared he ht hfatal hrecord hmove =>
      cases hmove.usage with
      | rested hstore htree =>
          exact .inl ⟨congrArg Store.layout hstore, congrArg Store.completed hstore,
            htree.symm ▸ hrefl⟩
      | read hstep =>
          obtain ⟨hlayout, hcompleted, -⟩ := Reading.step_store hstep
          exact .inl ⟨hlayout, hcompleted, (Reading.step_spec h.housed hstep).1⟩
      | begun hverify hstore htree =>
          exact .inl ⟨congrArg Store.layout hstore, congrArg Store.completed hstore,
            htree.symm ▸ hrefl⟩
      | wrote hbefore hafter heffect =>
          exact .inr ⟨hfatal, k, t, t', _, _, _, ht,
            List.getElem?_set_self (List.getElem?_eq_some_iff.1 ht).1, hbefore, hafter, heffect⟩
  | _ => exact .inl ⟨rfl, rfl, hrefl⟩

/-- Pieces stay sealed when the store is not written: tasks store what they stored before, or begin
to store what is in order. -/
theorem rested (h : w.Sealed d) (hlayout : w'.store.layout = w.store.layout)
    (hextends : w.tree.Extends w'.tree) (hhoused : w'.store.Housed w'.tree)
    (htasks : ∀ t' ∈ w'.tasks, (∃ t ∈ w.tasks, t'.phase.writing? = t.phase.writing?) ∨
      t'.phase.Sound w'.store w'.tree) : w'.Sealed d := by
  refine ⟨h.fits.of_layout hlayout, hhoused, fun t' ht' => ?_⟩
  rcases htasks t' ht' with ⟨t, ht, hsame⟩ | hsound
  · intro spec writing hwriting
    rw [hsame] at hwriting
    refine (h.sound t ht spec writing hwriting).of_holds hlayout hextends.toKeeps ?_
    exact fun _ _ _ _ _ hc => hc.extends hlayout hextends
  · exact hsound

/-- What one task does without writing keeps pieces sealed. -/
theorem rested_set (h : w.Sealed d) (hlayout : w'.store.layout = w.store.layout)
    (hextends : w.tree.Extends w'.tree) (hhoused : w'.store.Housed w'.tree)
    (ht : w.tasks[k]? = some t) (htasks : w'.tasks = w.tasks.set k t')
    (hphase : t'.phase.writing? = t.phase.writing? ∨ t'.phase.writing? = none) : w'.Sealed d := by
  refine h.rested hlayout hextends hhoused fun u hu => ?_
  rw [htasks] at hu
  rcases List.mem_or_eq_of_mem_set hu with hu | rfl
  · exact .inl ⟨u, hu, rfl⟩
  · rcases hphase with hsame | hnone
    · exact .inl ⟨t, List.mem_of_getElem? ht, hsame⟩
    · exact .inr (Phase.sound_of_none hnone)

/-- A piece that was checked is in order when its storing begins. -/
theorem begun (h : w.Sealed d) {spec : PieceSpec} {data : Bytes} {shared : Shared}
    (hverify : spec.verify data = true) (hstore : shared.store = w.store)
    (htree : shared.tree = w.tree)
    (hwriting : t'.phase.writing? = some (spec, w.store.write spec.index data)) :
    Sealed d { w with toShared := shared, tasks := w.tasks.set k t' } := by
  have hdigest : Sha1.digest data = spec.hash := by
    simp only [PieceSpec.verify] at hverify
    rw [Bool.and_eq_true, beq_iff_eq, beq_iff_eq] at hverify
    exact hverify.2
  refine h.rested (congrArg Store.layout hstore) ?_ ?_ ?_
  · show w.tree.Extends shared.tree
    rw [htree]
    exact .refl _
  · show shared.store.Housed shared.tree
    rw [hstore, htree]
    exact h.housed
  · intro u hu
    rcases List.mem_or_eq_of_mem_set hu with hu | rfl
    · exact .inl ⟨u, hu, rfl⟩
    · refine .inr fun x writing hx => ?_
      rw [hwriting] at hx
      cases hx
      show (w.store.write spec.index data).Sound shared.store shared.tree spec.index spec.hash
      rw [hstore, htree, ← hdigest]
      exact Writing.sound_write _ _ _ _

/-- Pieces stay sealed when one of them is written. -/
theorem wrote {pieces : List PieceSpec} {fault : Option Fault} {shared : Shared} {spec : PieceSpec}
    {writing writing' : Writing} (h : w.Sealed d) (hd : d.Sound) (hledger : w.Ledger d pieces)
    (ht : w.tasks[k]? = some t) (hbefore : t.phase.writing? = some (spec, writing))
    (hafter : t'.phase.writing? = some (spec, writing'))
    (heffect : Writing.Effect fault w.store w.tree writing writing' shared.store shared.tree) :
    Sealed d { w with toShared := shared, tasks := w.tasks.set k t' } := by
  have hsound := h.sound t (List.mem_of_getElem? ht) spec writing hbefore
  have hlayout := heffect.grows.layout
  refine ⟨h.fits.of_layout hlayout, heffect.housed h.housed, fun u hu x writing'' hwriting => ?_⟩
  obtain ⟨j, hj⟩ := List.mem_iff_getElem?.1 hu
  rcases getElem?_set_cases hj with ⟨rfl, rfl⟩ | ⟨hne, hj⟩
  · rw [hafter] at hwriting
    cases hwriting
    exact heffect.sound h.housed hsound
  · -- another task stores another piece, and what is there of it stays there
    have hindex := hledger.index_ne_of_claims hne hj ht (Phase.claim?_of_writing? hwriting)
      (Phase.claim?_of_writing? hbefore)
    obtain ⟨_, -, hcarries⟩ := hsound
    exact (h.sound u (List.mem_of_getElem? hj) x writing'' hwriting).of_holds hlayout
      (heffect.keeps h.housed.handles) fun data gs hlaid c hc hold =>
        heffect.holds_of_agree h.housed h.fits hd hcarries (fun heq => absurd heq.symm hindex)
          hlaid hc hold

/-- Every change keeps pieces sealed. -/
theorem change {pieces : List PieceSpec} (h : w.Sealed d) (hd : d.Sound)
    (hledger : w.Ledger d pieces) (hchange : Change w e w') : w'.Sealed d := by
  have hrefl := FileTree.Extends.refl w.tree
  cases hchange with
  | nothing => exact h
  | heard ht hrecord hphase =>
      exact h.rested_set rfl hrefl h.housed ht rfl (.inl (by rw [hphase]))
  | joined ht hphase hrecord hphase' =>
      exact h.rested_set rfl hrefl h.housed ht rfl (.inr (by rw [hphase']; rfl))
  | @stopped k t t' ht hfatal hrecord hlive hphase =>
      obtain ⟨hlayout, -, hslots, htree⟩ := giveBack_surrender t.phase w.toShared
      refine h.rested_set hlayout ?_ ?_ ht rfl (.inr (by rw [hphase]; rfl))
      · exact htree.symm ▸ hrefl
      · exact htree.symm ▸ h.housed.of_layout hlayout fun slot hslot =>
          h.housed.handles slot (hslots ▸ hslot)
  | finished he htasks hjoined houtcome =>
      refine h.rested w.store.layout_close hrefl ?_ fun t ht => .inl ⟨t, ht, rfl⟩
      exact h.housed.of_layout w.store.layout_close (Store.handles_close _ _)
  | @moved k t t' shared he ht hfatal hrecord hmove =>
      cases hmove.usage with
      | rested hstore htree hwriting =>
          refine h.rested_set (congrArg Store.layout hstore) ?_ ?_ ht rfl hwriting
          · exact htree.symm ▸ hrefl
          · exact hstore.symm ▸ htree.symm ▸ h.housed
      | read hstep hwriting =>
          obtain ⟨hextends, hhoused⟩ := Reading.step_spec h.housed hstep
          exact h.rested_set (Reading.step_store hstep).1 hextends hhoused ht rfl (.inr hwriting)
      | begun hverify hstore htree hwriting => exact h.begun hverify hstore htree hwriting
      | wrote hbefore hafter heffect => exact h.wrote hd hledger ht hbefore hafter heffect

end Sealed

/-! ## Pieces that are reported -/

/-- A piece is in its files if it is reported. -/
def Intact (d : Descriptor) (i : PieceIndex) (w : Swarm) : Prop :=
  w.store.hasPiece i = true →
    ∃ hash, d.pieceHashes[i.toNat]? = some hash ∧ w.store.Placed w.tree i hash []

/-- Between two moments a task that stores a piece lays bytes over it that were not there, though
the piece is reported.  A write of which nothing gets through lays none. -/
def Overwrites (w w' : Swarm) (i : PieceIndex) : Prop :=
  w.fatal = none ∧ w.store.hasPiece i = true ∧ w'.tree ≠ w.tree ∧
    ∃ (k : Nat) (t t' : Task) (spec : PieceSpec) (writing : Writing) (c : Chunk),
      w.tasks[k]? = some t ∧ w'.tasks[k]? = some t' ∧ t'.phase ≠ t.phase ∧
      t.phase.writing? = some (spec, writing) ∧ spec.index = i ∧ writing.next? = some c ∧
      ¬w.store.Holds w.tree c

namespace Intact

variable {s : Store}

/-- Every change leaves a piece intact, unless a task lays other bytes over it. -/
theorem change (h : w.Intact d i) (hsealed : w.Sealed d) (hd : d.Sound)
    (hledger : w.Ledger d (missing d s)) (hkept : ¬w.Overwrites w' i)
    (hchange : Change w e w') : w'.Intact d i := by
  intro hbit
  rcases hsealed.files hchange with ⟨hlayout, hcompleted, hextends⟩ |
    ⟨hfatal, k, t, t', spec, writing, writing', ht, ht', hbefore, hafter, heffect⟩
  · simp only [Store.hasPiece] at hbit
    rw [hcompleted] at hbit
    obtain ⟨hash, hhash, hplaced⟩ := h hbit
    exact ⟨hash, hhash, hplaced.extends hlayout hextends⟩
  have hmem := List.mem_of_getElem? ht
  have hsound := hsealed.sound t hmem spec writing hbefore
  have hlayout := heffect.grows.layout
  rcases heffect.hasPiece hbit with hbit | rfl
  · obtain ⟨hash, hhash, hplaced⟩ := h hbit
    obtain ⟨_, -, hcarries⟩ := hsound
    -- a write of which nothing gets through leaves the piece as it is
    by_cases htree : w'.tree = w.tree
    · exact ⟨hash, hhash, hplaced.extends hlayout (htree ▸ .refl _)⟩
    refine ⟨hash, hhash, hplaced.of_holds hlayout fun data gs hlaid c hc hold => ?_⟩
    refine heffect.holds_of_held hsealed.housed hsealed.fits hd hcarries ?_ hlaid hc hold
    intro hindex c' hnext
    refine Classical.byContradiction fun hnot => hkept ⟨hfatal, hbit, htree, k, t, t', spec,
      writing, c', ht, ht', fun hsame => ?_, hbefore, hindex, hnext, hnot⟩
    rw [hsame, hbefore] at hafter
    cases hafter
    exact heffect.ne_of_next? hnext rfl
  · obtain rfl : i = spec.index := by
      have htracked := hledger.tracked t hmem
      obtain ⟨session, hphase⟩ := Phase.eq_of_writing? hbefore
      rw [hphase] at htracked
      exact htracked
    have hspec := hledger.piece?_of_claim hmem (Phase.claim?_of_writing? hbefore)
    exact ⟨spec.hash, Descriptor.hash_of_piece? hspec,
      heffect.placed_of_marked hsound rfl hlayout⟩

/-- What passes the check of a piece that is there is no other content, if only one passes. -/
theorem not_overwrites (h : w.Intact d i) (hsealed : w.Sealed d) (hd : d.Sound)
    (hledger : w.Ledger d (missing d s)) (hsettles : d.Settles i) : ¬w.Overwrites w' i := by
  rintro ⟨-, hbit, -, k, t, -, spec, writing, c, ht, -, -, hbefore, rfl, hnext, hnot⟩
  have hmem := List.mem_of_getElem? ht
  have hspec := hledger.piece?_of_claim hmem (Phase.claim?_of_writing? hbefore)
  obtain ⟨hash, hhash, data, hdigest, gs, done, hlaid, hdeal, hdone⟩ := h hbit
  obtain ⟨data', hdigest', hcarries⟩ := hsealed.sound t hmem spec writing hbefore
  obtain ⟨gs', hlaid', hmem'⟩ := hcarries.of_next hnext
  rw [Descriptor.hash_of_piece? hspec, Option.some.injEq] at hhash
  obtain rfl := hsettles spec hspec data data'
    (hlaid.verify hsealed.fits hd hspec (hdigest.trans hhash.symm))
    (hlaid'.verify hsealed.fits hd hspec hdigest')
  obtain rfl := hlaid.unique hlaid'
  rw [List.append_nil] at hdeal
  exact hnot (hdone c (hdeal ▸ hmem'))

end Intact

end Swarm

end Torrent
