import Torrent.Proofs.Archive.Lock
import Torrent.Proofs.Archive.Manned
import Torrent.Proofs.Swarm.Exclusive
import Torrent.Proofs.Swarm.Integrity

/-!
# What the resume file keeps

A bit that is in memory and in the resume file stays in both, whatever fails while
pieces are stored and wherever a run is cut off (`Swarm.Kept.upkeep`).  The file is
only written with the bitmap in memory, from its beginning, and only cut to the
length of the bitmap; so what a torn write leaves of it still has the bit.

When the writing of a piece ends without a failure, the whole bitmap is in the file
and the bit of the piece with it (`Swarm.Recording.kept`).

`Upkeep` is all that matters of a change for that, and `Swarm.Recording` is the
invariant: one task at a time has the resume file, and what it writes is the bitmap
in memory.
-/

namespace Torrent

theorem Phase.surrender_of_none {p : Phase} (h : p.writing? = none) (s : Store) :
    p.surrender s = s := by
  simp only [surrender]
  split
  next => cases h
  next => rfl

/-- Giving a piece back is no business of the store. -/
theorem Shared.giveBack_store (w : Shared) (claim : Option PieceSpec) :
    (w.giveBack claim).store = w.store ∧ (w.giveBack claim).tree = w.tree := by
  cases claim <;> exact ⟨rfl, rfl⟩

theorem Writing.giveUp_of_not_rewriting {writing : Writing} (h : writing.isRewriting = false)
    (s : Store) : writing.giveUp s = s := by
  cases writing with
  | saving bitmap => cases h
  | cutting n failure => cases h
  | _ => rfl

/-- Giving the resume file back changes nothing else. -/
theorem Writing.giveUp_eq (writing : Writing) (s : Store) :
    ∃ rewriting, writing.giveUp s = { s with rewriting := rewriting } := by
  cases writing <;> exact ⟨_, rfl⟩

namespace Swarm

variable {d : Descriptor} {w w' : Swarm} {ev : Event} {i : PieceIndex} {j k : Nat} {t t' : Task}

/-! ## The store behind a change -/

/-- The piece that the task with a number is storing, and how far it is. -/
def writing? (w : Swarm) (k : Nat) : Option (PieceSpec × Writing) :=
  w.tasks[k]?.bind fun t => t.phase.writing?

theorem writing?_of_task {x : PieceSpec × Writing} (ht : w.tasks[k]? = some t)
    (hx : t.phase.writing? = some x) : w.writing? k = some x := by
  simp only [writing?]
  rw [ht]
  exact hx

theorem writing?_of_set {x : PieceSpec × Writing} (ht : w.tasks[k]? = some t)
    (htasks : w'.tasks = w.tasks.set k t') (hx : w'.writing? j = some x) :
    j = k ∧ t'.phase.writing? = some x ∨ j ≠ k ∧ w.writing? j = some x := by
  simp only [writing?] at hx ⊢
  rw [htasks] at hx
  by_cases heq : j = k
  · subst heq
    rw [List.getElem?_set_self (List.getElem?_eq_some_iff.1 ht).1] at hx
    exact .inl ⟨rfl, hx⟩
  · rw [List.getElem?_set_ne (Ne.symm heq)] at hx
    exact .inr ⟨heq, hx⟩

/-- What a change means for the store, its files and the pieces on their way there. -/
inductive Upkeep (w : Swarm) (ev : Event) (w' : Swarm) : Prop
  /-- Files are at most opened or closed.  Pieces are stored as far as before, or are about to be
  stored. -/
  | calm (hlayout : w'.store.layout = w.store.layout)
    (hcompleted : w'.store.completed = w.store.completed)
    (hrewriting : w'.store.rewriting = w.store.rewriting) (hextends : w.tree.Extends w'.tree)
    (hhoused : w.store.Housed w.tree → w'.store.Housed w'.tree)
    (hwriting : ∀ j x, w'.writing? j = some x →
      w.writing? j = some x ∨ ∃ data, x.2 = w'.store.write x.1.index data)
  | wrote {k : Nat} {spec : PieceSpec} {writing writing' : Writing}
    (hbefore : w.writing? k = some (spec, writing))
    (hwriting : ∀ j x, w'.writing? j = some x →
      j = k ∧ x = (spec, writing') ∨ j ≠ k ∧ w.writing? j = some x)
    (heffect : Writing.Effect ev.fault? w.store w.tree writing writing' w'.store w'.tree)
  /-- A task was stopped while it stored a piece. -/
  | stopped {k : Nat} {spec : PieceSpec} {writing : Writing}
    (hbefore : w.writing? k = some (spec, writing))
    (hwriting : ∀ j x, w'.writing? j = some x → j ≠ k ∧ w.writing? j = some x)
    (hstore : w'.store = writing.giveUp w.store) (htree : w'.tree = w.tree)

/-- One task does something else than to store a piece, and the store is left alone. -/
theorem Upkeep.of_set (ht : w.tasks[k]? = some t) (htasks : w'.tasks = w.tasks.set k t')
    (hstore : w'.store = w.store) (htree : w'.tree = w.tree)
    (hphase : t'.phase.writing? = t.phase.writing? ∨ t'.phase.writing? = none) :
    Upkeep w ev w' := by
  refine .calm (congrArg Store.layout hstore) (congrArg Store.completed hstore)
    (congrArg Store.rewriting hstore) (htree.symm ▸ .refl _) (fun hs => hstore ▸ htree ▸ hs)
    fun j x hx => .inl ?_
  rcases writing?_of_set ht htasks hx with ⟨rfl, hnew⟩ | ⟨-, hold⟩
  · rcases hphase with hsame | hnone
    · exact writing?_of_task ht (hsame ▸ hnew)
    · cases hnone.symm.trans hnew
  · exact hold

theorem Change.upkeep (h : Change w ev w') : Upkeep w ev w' := by
  cases h with
  | nothing => exact .calm rfl rfl rfl (.refl _) id fun _ _ hx => .inl hx
  | heard ht hrecord hphase => exact .of_set ht rfl rfl rfl (.inl (by rw [hphase]))
  | joined ht hphase hrecord hphase' =>
      exact .of_set ht rfl rfl rfl (.inr (by rw [hphase']; rfl))
  | finished =>
      exact .calm w.store.layout_close rfl rfl (.refl _)
        (fun hs => hs.of_layout w.store.layout_close (Store.handles_close _ _))
        fun _ _ hx => .inl hx
  | @stopped k t t' ht hfatal hrecord hlive hphase =>
      have hnone : t'.phase.writing? = none := by
        rw [hphase]
        rfl
      obtain ⟨hstore, htree⟩ := Shared.giveBack_store
        { w.toShared with store := t.phase.surrender w.store } t.phase.claim?
      cases hwriting : t.phase.writing? with
      | none =>
          refine .of_set ht rfl ?_ htree (.inr hnone)
          exact hstore.trans (Phase.surrender_of_none hwriting _)
      | some x =>
          obtain ⟨session, hstoring⟩ := Phase.eq_of_writing? hwriting
          refine .stopped (writing?_of_task ht hwriting) (fun j x hx => ?_) ?_ htree
          · refine (writing?_of_set ht rfl hx).resolve_left ?_
            exact fun ⟨_, hnew⟩ => Option.some_ne_none _ (hnew.symm.trans hnone)
          · rw [hstore, hstoring]
            rfl
  | @moved k t t' shared he ht hfatal hrecord hmove =>
      cases hmove.usage with
      | rested hstore htree hwriting => exact .of_set ht rfl hstore htree hwriting
      | read hstep hnone =>
          obtain ⟨hlayout, hcompleted, hrewriting⟩ := Reading.step_store hstep
          refine .calm hlayout hcompleted hrewriting (Reading.step_extends hstep)
            (fun hs => (Reading.step_spec hs hstep).2) fun j x hx => .inl ?_
          rcases writing?_of_set ht rfl hx with ⟨-, hnew⟩ | ⟨-, hold⟩
          · cases hnone.symm.trans hnew
          · exact hold
      | begun hverify hstore htree hwriting =>
          refine .calm (congrArg Store.layout hstore) (congrArg Store.completed hstore)
            (congrArg Store.rewriting hstore) (htree ▸ .refl _) (fun hs => hstore ▸ htree ▸ hs)
            fun j x hx => ?_
          rcases writing?_of_set ht rfl hx with ⟨-, hnew⟩ | ⟨-, hold⟩
          · cases hwriting.symm.trans hnew
            exact .inr ⟨_, congrArg (fun s : Store => s.write _ _) hstore.symm⟩
          · exact .inl hold
      | wrote hbefore hafter heffect =>
          refine .wrote (writing?_of_task ht hbefore) (fun j x hx => ?_) heffect
          refine (writing?_of_set ht rfl hx).imp_left fun ⟨hj, hnew⟩ => ⟨hj, ?_⟩
          exact (Option.some.inj (hafter.symm.trans hnew)).symm

/-- The store is another state of the same one. -/
theorem Upkeep.grows (h : Upkeep w ev w') : w.store.Grows w'.store := by
  cases h with
  | calm hlayout hcompleted => exact Store.grows_of_completed_eq hlayout hcompleted
  | wrote hbefore hwriting heffect => exact heffect.grows
  | @stopped k spec writing hbefore hwriting hstore => exact hstore ▸ writing.giveUp_grows w.store

/-! ## The resume file -/

/-- The task with a number is at work on the resume file. -/
def Rewrites (w : Swarm) (k : Nat) : Prop :=
  ∃ spec writing, w.writing? k = some (spec, writing) ∧ writing.isRewriting = true

/-- A change passes the resume file on. -/
theorem Upkeep.passes (h : Upkeep w ev w') :
    Lock.Passes w.store.rewriting w.Rewrites w'.store.rewriting w'.Rewrites := by
  cases h with
  | calm hlayout hcompleted hrewriting hextends hhoused hwriting =>
      refine .kept hrewriting ?_
      rintro j ⟨spec, writing, hx, hw⟩
      rcases hwriting j _ hx with hold | ⟨data, hwrite⟩
      · exact ⟨spec, writing, hold, hw⟩
      · rw [show writing = _ from hwrite, Writing.isRewriting_write] at hw
        cases hw
  | @wrote k spec writing writing' hbefore hwriting heffect =>
      refine heffect.passes (fun hw => ⟨spec, writing, hbefore, hw⟩) ?_
      rintro j ⟨x, writing'', hx, hw⟩
      rcases hwriting j _ hx with ⟨rfl, heq⟩ | ⟨hne, hold⟩
      · cases heq
        exact .inl ⟨rfl, hw⟩
      · exact .inr ⟨hne, x, writing'', hold, hw⟩
  | @stopped k spec writing hbefore hwriting hstore =>
      have hold : ∀ j, w'.Rewrites j → j ≠ k ∧ w.Rewrites j := by
        rintro j ⟨x, writing', hx, hw⟩
        obtain ⟨hne, hold⟩ := hwriting j _ hx
        exact ⟨hne, x, writing', hold, hw⟩
      cases hw : writing.isRewriting with
      | true => exact .given k ⟨spec, writing, hbefore, hw⟩ hold
      | false =>
          refine .kept ?_ fun j hj => (hold j hj).2
          rw [hstore, Writing.giveUp_of_not_rewriting hw]

/-- The tasks of a download write the pieces to their files, and the bitmap in memory to the resume
file, one at a time. -/
structure Recording (d : Descriptor) (w : Swarm) : Prop where
  housed : w.store.Housed w.tree
  size : w.store.completed.bytes.length = byteLength d.pieceCount
  aims : ∀ k spec writing, w.writing? k = some (spec, writing) →
    ∃ data, writing.Aims w.store w.tree spec.index data
  lock : Lock w.store.rewriting w.Rewrites
  saving : ∀ k spec bitmap, w.writing? k = some (spec, .saving bitmap) →
    bitmap = w.store.completed.bytes
  cutting : ∀ k spec n failure, w.writing? k = some (spec, .cutting n failure) →
    n = byteLength d.pieceCount ∧
      (failure = none → (w.tree.content w.store.resume).take n = w.store.completed.bytes)

namespace Recording

/-- Only the bitmap is written to the resume file. -/
theorem resume_cases (h : w.Recording d) {spec : PieceSpec} {writing writing' : Writing}
    {fault : Option Fault} {s : Store} {t : FileTree}
    (hbefore : w.writing? k = some (spec, writing))
    (heffect : Writing.Effect fault w.store w.tree writing writing' s t) :
    t.content w.store.resume = w.tree.content w.store.resume ∨
      (∃ bitmap, writing = .saving bitmap ∧ t.content w.store.resume =
        (w.tree.content w.store.resume).writeAt 0 (Fault.passed fault bitmap)) ∨
      ∃ n failure, writing = .cutting n failure ∧
        t.content w.store.resume = (w.tree.content w.store.resume).resize n := by
  rcases heffect.resume h.housed.toSettled with hsame | hsaving | hcutting | ⟨i, c, rest, rfl⟩
  · exact .inl hsame
  · exact .inr (.inl hsaving)
  · exact .inr (.inr hcutting)
  · obtain ⟨data, -, hfile⟩ := h.aims k spec _ hbefore
    exact absurd rfl (h.housed.ne_resume (hfile c rest rfl).standsAt)

/-- A step of a task leaves bitmap and resume file alone while another task has that file. -/
theorem alone (h : w.Recording d) {spec : PieceSpec} {writing writing' : Writing}
    {fault : Option Fault} {s : Store} {t : FileTree}
    (hbefore : w.writing? k = some (spec, writing))
    (heffect : Writing.Effect fault w.store w.tree writing writing' s t) (hj : w.Rewrites j)
    (hne : j ≠ k) :
    s.completed = w.store.completed ∧
      t.content w.store.resume = w.tree.content w.store.resume := by
  have hidle : writing.isRewriting = false := by
    refine Bool.eq_false_iff.2 fun hw => hne ?_
    exact h.lock.single j k hj ⟨spec, writing, hbefore, hw⟩
  refine ⟨?_, ?_⟩
  · cases heffect with
    | opening hopen => exact (Store.openSlot_store hopen).2.1
    | unopened hopen => exact (Store.openSlot_store hopen).2.1
    | marked i hfree =>
        rw [h.lock.busy j hj] at hfree
        cases hfree
    | _ => rfl
  · rcases h.resume_cases hbefore heffect with hsame | ⟨bitmap, rfl, -⟩ | ⟨n, failure, rfl, -⟩
    · exact hsame
    · cases hidle
    · cases hidle

/-- The bitmap that a task is about to write stays that in memory. -/
theorem saving_upkeep (h : w.Recording d) (hup : Upkeep w ev w') {spec : PieceSpec} {bitmap : Bytes}
    (hsaving : w'.writing? k = some (spec, .saving bitmap)) :
    bitmap = w'.store.completed.bytes := by
  cases hup with
  | calm hlayout hcompleted hrewriting hextends hhoused hwriting =>
      rw [hcompleted]
      rcases hwriting k _ hsaving with hold | ⟨data, hwrite⟩
      · exact h.saving k spec bitmap hold
      · cases Writing.isMarked_of_eq_write hwrite
  | wrote hbefore hwriting heffect =>
      rcases hwriting k _ hsaving with ⟨rfl, heq⟩ | ⟨hne, hold⟩
      · cases heq
        exact heffect.eq_of_saving
      · rw [(h.alone hbefore heffect ⟨spec, _, hold, rfl⟩ hne).1]
        exact h.saving k spec bitmap hold
  | @stopped j x writing hbefore hwriting hstore =>
      obtain ⟨rewriting, heq⟩ := writing.giveUp_eq w.store
      rw [hstore, heq]
      exact h.saving k spec bitmap (hwriting k _ hsaving).2

/-- A task that is about to cut the resume file cuts it to the length of the bitmap, and has the
bitmap in front if it could be written. -/
theorem cutting_upkeep (h : w.Recording d) (hup : Upkeep w ev w') {spec : PieceSpec} {n : Nat}
    {failure : Option IoError} (hcutting : w'.writing? k = some (spec, .cutting n failure)) :
    n = byteLength d.pieceCount ∧ (failure = none →
      (w'.tree.content w'.store.resume).take n = w'.store.completed.bytes) := by
  have hresume := Store.resume_of_layout hup.grows.layout
  cases hup with
  | calm hlayout hcompleted hrewriting hextends hhoused hwriting =>
      rw [hcompleted, hresume, hextends.content]
      rcases hwriting k _ hcutting with hold | ⟨data, hwrite⟩
      · exact h.cutting k spec n failure hold
      · cases Writing.isMarked_of_eq_write hwrite
  | @wrote j x writing writing' hbefore hwriting heffect =>
      rcases hwriting k _ hcutting with ⟨rfl, heq⟩ | ⟨hne, hold⟩
      · cases heq
        obtain ⟨bitmap, rfl, rfl, rfl, hstore, htree⟩ := heffect.of_cutting
        obtain rfl := h.saving k spec bitmap hbefore
        refine ⟨h.size, fun hnone => ?_⟩
        rw [hstore, htree, Option.map_eq_none_iff.1 hnone]
        simp only [FileTree.writeAt]
        rw [FileTree.content_setContent_self h.housed.toSettled.resume_lt, Bytes.writeAt_zero]
        exact List.take_left
      · obtain ⟨hcompleted, hcontent⟩ := h.alone hbefore heffect ⟨spec, _, hold, rfl⟩ hne
        rw [hcompleted, hresume, hcontent]
        exact h.cutting k spec n failure hold
  | @stopped j x writing hbefore hwriting hstore htree =>
      obtain ⟨rewriting, heq⟩ := writing.giveUp_eq w.store
      rw [hstore, htree, heq]
      exact h.cutting k spec n failure (hwriting k _ hcutting).2

/-- Every name stays where it is. -/
theorem keeps (h : w.Recording d) (hup : Upkeep w ev w') : w.tree.Keeps w'.tree := by
  cases hup with
  | calm _ _ _ hextends => exact hextends.toKeeps
  | wrote hbefore hwriting heffect => exact heffect.keeps h.housed.handles
  | stopped hbefore hwriting hstore htree => exact htree.symm ▸ .refl _

theorem upkeep (h : w.Recording d) (hup : Upkeep w ev w') : w'.Recording d := by
  have hlayout := hup.grows.layout
  have hkeeps := h.keeps hup
  have hrest : w'.store.Housed w'.tree ∧ ∀ k spec writing, w'.writing? k = some (spec, writing) →
      ∃ data, writing.Aims w'.store w'.tree spec.index data := by
    cases hup with
    | calm _ _ _ hextends hhoused hwriting =>
        refine ⟨hhoused h.housed, fun k spec writing hx => ?_⟩
        rcases hwriting k _ hx with hold | ⟨data, hwrite⟩
        · obtain ⟨data, haims⟩ := h.aims k spec writing hold
          exact ⟨data, haims.keeps hlayout hkeeps⟩
        · have hbegun : writing = w'.store.write spec.index data := hwrite
          exact ⟨data, hbegun ▸ Writing.aims_write _ _ _ _⟩
    | wrote hbefore hwriting heffect =>
        refine ⟨heffect.housed h.housed, fun k spec writing hx => ?_⟩
        rcases hwriting k _ hx with ⟨-, heq⟩ | ⟨-, hold⟩
        · cases heq
          obtain ⟨data, haims⟩ := h.aims _ _ _ hbefore
          exact ⟨data, haims.step h.housed.handles heffect⟩
        · obtain ⟨data, haims⟩ := h.aims k spec writing hold
          exact ⟨data, haims.keeps hlayout hkeeps⟩
    | @stopped j x writing hbefore hwriting hstore htree =>
        obtain ⟨rewriting, heq⟩ := writing.giveUp_eq w.store
        rw [hstore, htree, heq]
        refine ⟨h.housed.of_layout rfl h.housed.handles, fun k spec writing' hx => ?_⟩
        obtain ⟨data, haims⟩ := h.aims k spec writing' (hwriting k _ hx).2
        exact ⟨data, haims.keeps rfl (.refl _)⟩
  exact ⟨hrest.1, hup.grows.size.trans h.size, hrest.2, h.lock.step hup.passes,
    fun k spec bitmap hsaving => h.saving_upkeep hup hsaving,
    fun k spec n failure hcutting => h.cutting_upkeep hup hcutting⟩

end Recording

/-! ## Bits that stay -/

/-- A piece is reported, and its bit is in the resume file. -/
def Kept (d : Descriptor) (w : Swarm) (i : PieceIndex) : Prop :=
  w.store.hasPiece i = true ∧
    (Store.bitmapOf (w.tree.content w.store.resume) d.pieceCount).has i = true

/-- A bit that is in memory and in the resume file stays in both, also when a part of the bitmap is
written over it. -/
theorem Kept.upkeep (h : Kept d w i) (hrecording : w.Recording d) (hup : Upkeep w ev w') :
    Kept d w' i := by
  refine ⟨hup.grows.bits i h.1, ?_⟩
  rw [Store.resume_of_layout hup.grows.layout]
  cases hup with
  | calm hlayout hcompleted hrewriting hextends =>
      rw [hextends.content]
      exact h.2
  | stopped hbefore hwriting hstore htree =>
      rw [htree]
      exact h.2
  | @wrote k spec writing writing' hbefore hwriting heffect =>
      rcases hrecording.resume_cases hbefore heffect with
        hsame | ⟨bitmap, rfl, hwritten⟩ | ⟨n, failure, rfl, hcut⟩
      · rw [hsame]
        exact h.2
      · obtain rfl := hrecording.saving k spec bitmap hbefore
        obtain ⟨m, hpassed⟩ := Fault.passed_eq_take ev.fault? w.store.completed.bytes
        rw [hwritten, hpassed]
        exact Store.bit_writeAt_of_bit h.2 h.1
      · obtain ⟨rfl, -⟩ := hrecording.cutting k spec n failure hbefore
        have hbit := h.2
        simp only [Bitfield.has] at hbit
        rw [Store.bit_bitmapOf, Bool.and_eq_true, decide_eq_true_eq] at hbit
        rw [hcut, Store.bitmapOf_resize hbit.1.1]
        exact h.2

/-- When the writing of a piece ends without a failure, the bits of all pieces in memory are in the
resume file. -/
theorem Recording.kept (h : w.Recording d) {spec : PieceSpec} {writing : Writing}
    {fault : Option Fault} (hbefore : w.writing? k = some (spec, writing))
    (hleft : writing ≠ .finished (.ok ()))
    (heffect : Writing.Effect fault w.store w.tree writing (.finished (.ok ())) w'.store w'.tree)
    (hi : w'.store.hasPiece i = true) : Kept d w' i := by
  refine ⟨hi, ?_⟩
  rw [Store.resume_of_layout heffect.grows.layout]
  generalize hstore : w'.store = s at heffect hi
  generalize htree : w'.tree = t at heffect
  cases heffect with
  | ended => exact absurd rfl hleft
  | closed n =>
      obtain ⟨rfl, hfront⟩ := h.cutting k spec n none hbefore
      have hlength := congrArg List.length (hfront rfl)
      rw [List.length_take, h.size] at hlength
      simp only [FileTree.setLength]
      rw [FileTree.content_setContent_self h.housed.toSettled.resume_lt,
        Bytes.resize_eq_take (by omega), hfront rfl, Store.bitmapOf_eq h.size]
      exact hi

/-- A download whose stored pieces are safe. -/
structure Persistent (d : Descriptor) (pieces : List PieceSpec) (w : Swarm) : Prop where
  ledger : w.Ledger d pieces
  recording : w.Recording d
  stored : ∀ k spec, w.writing? k = some (spec, .finished (.ok ())) → Kept d w spec.index

namespace Persistent

variable {pieces : List PieceSpec}

theorem change (hpieces : ∀ spec ∈ pieces, spec.index.toNat < d.pieceCount)
    (h : w.Persistent d pieces) (hchange : Change w ev w') : w'.Persistent d pieces := by
  have hup := hchange.upkeep
  have hledger := h.ledger.change hpieces hchange
  refine ⟨hledger, h.recording.upkeep hup, fun k spec hstored => ?_⟩
  cases hup with
  | calm hlayout hcompleted hrewriting hextends hhoused hwriting =>
      rcases hwriting k _ hstored with hold | ⟨data, hwrite⟩
      · exact (h.stored k spec hold).upkeep h.recording hchange.upkeep
      · cases Writing.isMarked_of_eq_write hwrite
  | @wrote j x writing writing' hbefore hwriting heffect =>
      have htracked : w'.store.hasPiece spec.index = true := by
        obtain ⟨t, ht, hphase⟩ := Option.bind_eq_some_iff.1 hstored
        obtain ⟨session, heq⟩ := Phase.eq_of_writing? hphase
        have htracked := hledger.tracked t (List.mem_of_getElem? ht)
        rw [heq] at htracked
        exact htracked
      rcases hwriting k _ hstored with ⟨-, heq⟩ | ⟨-, hold⟩
      · cases heq
        by_cases hleft : writing = .finished (.ok ())
        · exact (h.stored j spec (hleft ▸ hbefore)).upkeep h.recording hchange.upkeep
        · exact h.recording.kept hbefore hleft heffect htracked
      · exact (h.stored k spec hold).upkeep h.recording hchange.upkeep
  | stopped hbefore hwriting hstore htree =>
      exact (h.stored k spec (hwriting k _ hstored).2).upkeep h.recording hchange.upkeep

theorem run (hpieces : ∀ spec ∈ pieces, spec.index.toNat < d.pieceCount)
    (h : w.Persistent d pieces) (events : List Event) :
    (w.run events).Persistent d pieces ∧ w.tree.Keeps (w.run events).tree := by
  refine run_induction (P := fun v => v.Persistent d pieces ∧ w.tree.Keeps v.tree)
    ⟨h, .refl _⟩ ?_ events
  rintro v e v' hchange ⟨hv, hkeeps⟩
  exact ⟨hv.change hpieces hchange, hkeeps.trans (hv.recording.keeps hchange.upkeep)⟩

/-- A piece that is safe stays safe to the end of the run. -/
theorem kept_run (hpieces : ∀ spec ∈ pieces, spec.index.toNat < d.pieceCount)
    (h : w.Persistent d pieces) (hi : Kept d w i) (events : List Event) :
    Kept d (w.run events) i := by
  have hboth : (w.run events).Persistent d pieces ∧ Kept d (w.run events) i := by
    refine run_induction (P := fun v => v.Persistent d pieces ∧ Kept d v i) ⟨h, hi⟩ ?_ events
    rintro v e v' hchange ⟨hv, hkept⟩
    exact ⟨hv.change hpieces hchange, hkept.upkeep hv.recording hchange.upkeep⟩
  exact hboth.2

/-- A piece whose writing ended without a failure is safe. -/
theorem of_stored (h : w.Persistent d pieces) (hstored : w.Stored k i) : Kept d w i := by
  obtain ⟨t, ht, hi⟩ := hstored
  obtain ⟨spec, hwriting, rfl⟩ := Phase.stored?_eq_some_iff.1 hi
  exact h.stored k spec (writing?_of_task ht hwriting)

end Persistent

/-- A download that begins has nothing on its way, and what its store reports is in the resume
file. -/
theorem persistent_begin {s : Store} {tree tree' : FileTree} {root name : List Char}
    (hopen : Store.open_ tree root d name = (.ok s, tree'))
    (hplaces : (Store.placesOf tree root name d).Nodup) (peers : PeerSet)
    (settings : Settings) (localId : PeerId) (now : Nat) (fault : Option Fault) :
    let start := (seed d s tree' peers settings localId).begin_ now fault
    start.Persistent d (missing d s) ∧ ∀ i, start.store.hasPiece i = true → Kept d start i := by
  intro start
  have hhoused := Store.housed_open hopen hplaces
  obtain ⟨htree, hstore⟩ := begin_store (seed d s tree' peers settings localId) now fault
  obtain ⟨-, -, -, -, -, htasks⟩ :=
    begin_spec (w := seed d s tree' peers settings localId) rfl now fault
  have hidle : ∀ k, start.writing? k = none := by
    intro k
    refine Option.bind_eq_none_iff.2 fun t ht => ?_
    obtain ⟨deadline, hphase⟩ := htasks t (List.mem_of_getElem? ht)
    rw [hphase]
    rfl
  have hnone : ∀ {k x}, start.writing? k ≠ some x := by
    intro k x hx
    rw [hidle] at hx
    cases hx
  have hsame : start.store.Housed start.tree ∧ start.store.completed = s.completed ∧
      start.store.resume = s.resume := by
    rw [htree]
    rcases hstore with hstore | hstore
    · exact hstore ▸ ⟨hhoused, rfl, rfl⟩
    · exact hstore ▸ ⟨hhoused.of_layout s.layout_close (s.handles_close tree'), rfl, rfl⟩
  obtain ⟨hstarted, hcompleted, hresume⟩ := hsame
  have hsize := Store.size_open hopen
  refine ⟨⟨ledger_begin hsize tree' peers settings localId now fault, ?_, ?_⟩, fun i hi => ⟨hi, ?_⟩⟩
  · refine ⟨hstarted, hcompleted ▸ hsize, ?_, ⟨?_, ?_⟩, ?_, ?_⟩
    · exact fun _ _ _ hx => absurd hx hnone
    · rintro k ⟨spec, writing, hx, -⟩
      exact absurd hx hnone
    · rintro k _ ⟨spec, writing, hx, -⟩
      exact absurd hx hnone
    · exact fun _ _ _ hx => absurd hx hnone
    · exact fun _ _ _ _ hx => absurd hx hnone
  · exact fun _ _ hx => absurd hx hnone
  · simp only [Store.hasPiece] at hi
    rw [hcompleted, Store.completed_open hopen] at hi
    rw [hresume, htree]
    exact hi

end Swarm

end Torrent
