import Torrent.Proofs.Archive.Lock
import Torrent.Proofs.Archive.Manned

/-!
# The resume file under several calls

Several calls set bits and rewrite the resume file, and no bit gets lost: when a
piece was written and no call is at work on the resume file, the file is the bitmap
in memory (`Archive.resume_file_exact`).

Two things bring this about.  Only one call at a time has the resume file
(`Archive.Held`), and it takes the bitmap only when it has the file
(`Archive.Recorded`).  Calls that are still writing their pieces do not matter,
unless a file of the torrent is the resume file itself: then the bitmap can be
overlaid with the bytes of a piece until the call that writes it has set its bit
(`Archive.Overlaid`, `Archive.resume_file_laid_over`).
-/

namespace Torrent

/-! ## Pieces in the resume file -/

namespace Store

variable {s s' : Store} {t t' : FileTree} {i : PieceIndex} {data : Bytes}

/-- A part of the piece has its place in the resume file. -/
def Covers (s : Store) (t : FileTree) (i : PieceIndex) (data : Bytes) : Prop :=
  ∃ gs, s.Laid i data gs ∧ ∃ g ∈ gs, ∃ path, s.path? g.file = some path ∧
    t.place path = t.place s.resumePath

theorem Covers.of_layout (h : s.Covers t i data) (hlayout : s'.layout = s.layout)
    (hplace : ∀ path, t'.place path = t.place path) : s'.Covers t' i data := by
  obtain ⟨gs, hlaid, g, hg, path, hpath, hresume⟩ := h
  have hpath' := (path?_of_layout hlayout g.file).trans hpath
  refine ⟨gs, hlaid.of_layout hlayout, g, hg, path, hpath', ?_⟩
  rw [hplace, hplace, resumePath_of_layout hlayout]
  exact hresume

/-- Only if a file of the torrent is the resume file itself, parts of pieces can be in it. -/
theorem Covers.mem_places (h : s.Covers t i data) :
    t.place s.resumePath ∈ s.slots.map fun slot => t.place slot.path := by
  obtain ⟨gs, -, g, -, path, hpath, hplace⟩ := h
  obtain ⟨slot, hslot, rfl⟩ := Option.map_eq_some_iff.1 hpath
  rw [← hplace]
  exact List.mem_map_of_mem (List.mem_of_getElem? hslot)

end Store

/-! ## Calls whose bit is set -/

namespace Writing

variable {w : Writing}

theorem isMarked_of_isRewriting (h : w.isRewriting = true) : w.isMarked = true := by
  cases w with
  | saving bitmap => rfl
  | cutting n failure => rfl
  | _ => cases h

/-- A call whose bit is set and that is not at work on the resume file is over. -/
theorem eq_of_isMarked (h : w.isMarked = true) (hquiet : w.isRewriting = false) :
    w = .finished (.ok ()) := by
  cases w with
  | saving bitmap => cases hquiet
  | cutting n failure => cases hquiet
  | finished result =>
      cases result with
      | ok u => rfl
      | error e => cases h
  | _ => cases h

end Writing

/-! ## What is recorded -/

namespace Archive

variable {d : Descriptor} {acts : List Act} {a b : Archive} {e : Act} {k : Nat}

/-- The bytes of a piece can lie over the bitmap: a part of the piece has its place in the resume
file, and the call that writes it has not come to its bit. -/
def Overlaid (a : Archive) : Prop :=
  ∃ i data w, .write i data w ∈ a.calls ∧ w.isMarked = false ∧ a.store.Covers a.tree i data

/-- The bitmap in memory and the resume file have the bits that were loaded and those of the pieces
that were written. -/
structure Recorded (loaded : Bitfield) (a : Archive) : Prop where
  kept : ∀ j, loaded.bit j = true → a.store.completed.bit j = true
  marked : ∀ j, a.store.completed.bit j = true → loaded.bit j = true ∨
    ∃ i data w, .write i data w ∈ a.calls ∧ w.isMarked = true ∧ i.toNat = j
  /-- A bitmap that is to be written is the one in memory. -/
  saving : ∀ i data bitmap, .write i data (.saving bitmap) ∈ a.calls →
    bitmap = a.store.completed.bytes
  /-- A resume file that is to be cut begins with the bitmap in memory. -/
  cutting : ∀ i data n failure, .write i data (.cutting n failure) ∈ a.calls →
    failure = none ∧ n = a.store.completed.bytes.length ∧
      ((a.tree.content a.store.resume).take n = a.store.completed.bytes ∨ a.Overlaid)
  /-- A resume file on which no call is at work is the bitmap in memory. -/
  quiet : (∀ i data w, .write i data w ∈ a.calls → w.isRewriting = false) →
    (∃ i data, .write i data (.finished (.ok ())) ∈ a.calls) →
      a.tree.content a.store.resume = a.store.completed.bytes ∨ a.Overlaid

theorem mem_set_of_ne {calls : List Call} {c c' x : Call} (hcall : calls[k]? = some c)
    (hx : x ∈ calls) (hne : x ≠ c) : x ∈ calls.set k c' := by
  obtain ⟨j, hj⟩ := List.getElem?_of_mem hx
  have hkj : k ≠ j := by
    rintro rfl
    rw [hcall] at hj
    cases hj
    exact hne rfl
  exact List.mem_of_getElem? ((List.getElem?_set_ne hkj).trans hj)

/-- A call whose bit is set stays so when another call, or the same one, comes to the bit of its
piece. -/
theorem marked_set {i : PieceIndex} {data : Bytes} {w w' : Writing} {j : Nat}
    (hcall : a.calls[k]? = some (.write i data w)) (hw' : w'.isMarked = true)
    (h : ∃ i data w, .write i data w ∈ a.calls ∧ w.isMarked = true ∧ i.toNat = j) :
    ∃ i' data' v, .write i' data' v ∈ a.calls.set k (.write i data w') ∧ v.isMarked = true ∧
      i'.toNat = j := by
  obtain ⟨i', data', v, hmem, hv, hj⟩ := h
  by_cases hsame : Call.write i' data' v = .write i data w
  · cases hsame
    obtain ⟨hk, -⟩ := List.getElem?_eq_some_iff.1 hcall
    exact ⟨i, data, w', List.mem_set hk _, hw', hj⟩
  · exact ⟨i', data', v, mem_set_of_ne hcall hmem hsame, hv, hj⟩

namespace Recorded

variable {loaded : Bitfield}

/-- What is recorded stays as long as only calls change whose bits are not set. -/
theorem rest (h : a.Recorded loaded) (hcompleted : b.store.completed = a.store.completed)
    (hcalls : ∀ i data w, .write i data w ∈ b.calls → w.isMarked = true → .write i data w ∈ a.calls)
    (hmarked : ∀ i data w, .write i data w ∈ a.calls → w.isMarked = true →
      .write i data w ∈ b.calls)
    (hcontent : b.tree.content b.store.resume = a.tree.content a.store.resume ∧
      (a.Overlaid → b.Overlaid) ∨ b.Overlaid) : b.Recorded loaded := by
  refine ⟨fun j hj => hcompleted.symm ▸ h.kept j hj, fun j hj => ?_, fun i data bitmap hcall => ?_,
    fun i data n failure hcall => ?_, fun hnone hsome => ?_⟩
  · rw [hcompleted] at hj
    rcases h.marked j hj with hold | ⟨i, data, w, hcall, hw, hi⟩
    · exact .inl hold
    · exact .inr ⟨i, data, w, hmarked i data w hcall hw, hw, hi⟩
  · rw [hcompleted]
    exact h.saving i data bitmap (hcalls i data _ hcall rfl)
  · rw [hcompleted]
    obtain ⟨hfailure, hn, hfront⟩ := h.cutting i data n failure (hcalls i data _ hcall rfl)
    refine ⟨hfailure, hn, ?_⟩
    rcases hcontent with ⟨hsame, hoverlaid⟩ | hoverlaid
    · rw [hsame]
      exact hfront.imp_right hoverlaid
    · exact .inr hoverlaid
  · rcases hcontent with ⟨hsame, hoverlaid⟩ | hoverlaid
    · rw [hsame, hcompleted]
      refine (h.quiet (fun i data w hcall => ?_) ?_).imp_right hoverlaid
      · refine Bool.of_not_eq_true fun hw => ?_
        have hkept := hmarked i data w hcall (Writing.isMarked_of_isRewriting hw)
        rw [hnone i data w hkept] at hw
        cases hw
      · obtain ⟨i, data, hcall⟩ := hsome
        exact ⟨i, data, hcalls i data _ hcall rfl⟩
    · exact .inr hoverlaid

/-- What is recorded stays when no call that writes goes on. -/
theorem calm (h : a.Recorded loaded) (hlater : Later a b)
    (hcompleted : b.store.completed = a.store.completed)
    (hcontent : b.tree.content a.store.resume = a.tree.content a.store.resume)
    (hcalls : ∀ i data w, .write i data w ∈ b.calls → w.isMarked = true → .write i data w ∈ a.calls)
    (hkept : ∀ i data w, .write i data w ∈ a.calls → .write i data w ∈ b.calls) :
    b.Recorded loaded := by
  refine h.rest hcompleted hcalls (fun i data w hmem _ => hkept i data w hmem) (.inl ⟨?_, ?_⟩)
  · rw [hlater.resume_eq]
    exact hcontent
  · rintro ⟨i, data, w, hmem, hw, hcovers⟩
    exact ⟨i, data, w, hkept i data w hmem, hw,
      hcovers.of_layout hlater.grows.layout hlater.keeps.place_eq⟩

/-- A call that sets the bit of its piece takes the bitmap with it. -/
theorem set (h : a.Recorded loaded) (hheld : a.Held) {i : PieceIndex} {data : Bytes}
    (hcall : a.calls[k]? = some (.write i data (.marking i))) (hfree : a.store.rewriting = false) :
    Recorded loaded
      ⟨{ a.store with completed := a.store.completed.insert i, rewriting := true }, a.tree,
        a.calls.set k (.write i data (.saving (a.store.completed.insert i).bytes))⟩ := by
  obtain ⟨hk, -⟩ := List.getElem?_eq_some_iff.1 hcall
  have hnew := List.mem_set hk (.write i data (.saving (a.store.completed.insert i).bytes))
  have hnone : ∀ j data' w, .write j data' w ∈ a.calls → w.isRewriting = false := by
    intro j data' w hmem
    refine Bool.of_not_eq_true fun hw => ?_
    obtain ⟨k', hk'⟩ := List.getElem?_of_mem hmem
    rw [hheld.busy k' ⟨j, data', w, hk', hw⟩] at hfree
    cases hfree
  refine ⟨fun j hj => ?_, fun j hj => ?_, fun j data' bitmap hmem => ?_,
    fun j data' n failure hmem => ?_, fun hquiet => ?_⟩
  · dsimp only
    rw [Bitfield.bit_insert, h.kept j hj, Bool.true_or]
  · dsimp only at hj ⊢
    rw [Bitfield.bit_insert, Bool.or_eq_true, decide_eq_true_eq] at hj
    rcases hj with hold | ⟨rfl, -⟩
    · exact (h.marked j hold).imp_right (marked_set hcall rfl)
    · exact .inr ⟨i, data, _, hnew, rfl, rfl⟩
  · rcases List.mem_or_eq_of_mem_set hmem with hold | heq
    · cases hnone j data' _ hold
    · cases heq
      rfl
  · rcases List.mem_or_eq_of_mem_set hmem with hold | heq
    · cases hnone j data' _ hold
    · cases heq
  · cases hquiet _ _ _ hnew

/-- A call that writes the bitmap to the resume file puts it in front. -/
theorem save (h : a.Recorded loaded) (ha : a.store.Settled a.tree) {i : PieceIndex}
    {data bitmap : Bytes} (hcall : a.calls[k]? = some (.write i data (.saving bitmap))) :
    Recorded loaded ⟨a.store, a.tree.writeAt a.store.resume 0 bitmap,
      a.calls.set k (.write i data (.cutting bitmap.length none))⟩ := by
  obtain ⟨hk, -⟩ := List.getElem?_eq_some_iff.1 hcall
  have hbitmap := h.saving i data bitmap (List.mem_of_getElem? hcall)
  have hfront : ((a.tree.writeAt a.store.resume 0 bitmap).content a.store.resume).take
      bitmap.length = a.store.completed.bytes := by
    simp only [FileTree.writeAt]
    rw [FileTree.content_setContent_self ha.resume_lt, Bytes.writeAt_zero, List.take_left, hbitmap]
  refine ⟨h.kept, fun j hj => (h.marked j hj).imp_right (marked_set hcall rfl),
    fun j data' bitmap' hmem => ?_, fun j data' n failure hmem => ?_, fun hquiet => ?_⟩
  · rcases List.mem_or_eq_of_mem_set hmem with hold | heq
    · exact h.saving j data' bitmap' hold
    · cases heq
  · rcases List.mem_or_eq_of_mem_set hmem with hold | heq
    · obtain ⟨hfailure, rfl, -⟩ := h.cutting j data' n failure hold
      exact ⟨hfailure, rfl, .inl (hbitmap ▸ hfront)⟩
    · cases heq
      exact ⟨rfl, congrArg List.length hbitmap, .inl hfront⟩
  · cases hquiet _ _ _ (List.mem_set hk _)

/-- A call that cuts the resume file leaves the bitmap there. -/
theorem close (h : a.Recorded loaded) (ha : a.store.Settled a.tree) {i : PieceIndex}
    {data : Bytes} {n : Nat} (hcall : a.calls[k]? = some (.write i data (.cutting n none))) :
    Recorded loaded ⟨{ a.store with rewriting := false }, a.tree.setLength a.store.resume n,
      a.calls.set k (.write i data (.finished (.ok ())))⟩ := by
  obtain ⟨-, hn, hfront⟩ := h.cutting i data n none (List.mem_of_getElem? hcall)
  have hcontent : (a.tree.setLength a.store.resume n).content a.store.resume =
      a.store.completed.bytes ∨ Overlaid ⟨{ a.store with rewriting := false },
        a.tree.setLength a.store.resume n, a.calls.set k (.write i data (.finished (.ok ())))⟩ := by
    rcases hfront with hfront | ⟨j, data', w, hmem, hw, hcovers⟩
    · refine .inl ?_
      have hlength := congrArg List.length hfront
      rw [List.length_take] at hlength
      simp only [FileTree.setLength]
      rw [FileTree.content_setContent_self ha.resume_lt, Bytes.resize_eq_take (by omega), hfront]
    · refine .inr ⟨j, data', w, mem_set_of_ne hcall hmem ?_, hw,
        hcovers.of_layout rfl fun path => rfl⟩
      rintro heq
      cases heq
      cases hw
  refine ⟨h.kept, fun j hj => (h.marked j hj).imp_right (marked_set hcall rfl),
    fun j data' bitmap' hmem => ?_, fun j data' n' failure hmem => ?_, fun _ _ => hcontent⟩
  · rcases List.mem_or_eq_of_mem_set hmem with hold | heq
    · exact h.saving j data' bitmap' hold
    · cases heq
  · rcases List.mem_or_eq_of_mem_set hmem with hold | heq
    · obtain ⟨hfailure, hn', -⟩ := h.cutting j data' n' failure hold
      refine ⟨hfailure, hn', hcontent.imp_left fun hcontent => ?_⟩
      dsimp only
      rw [hcontent, hn', List.take_length]
    · cases heq

/-- What is recorded stays when a call goes on that has not come to the bit of its piece. -/
theorem place (h : a.Recorded loaded) (ha : a.Manned d) {i : PieceIndex} {data : Bytes}
    {w w' : Writing} {s : Store} {t : FileTree} {fault : Option Fault}
    (hcall : a.calls[k]? = some (.write i data w))
    (heffect : Writing.Effect fault a.store a.tree w w' s t) (hw : w.isMarked = false)
    (hw' : w'.isMarked = false) (hcompleted : s.completed = a.store.completed) :
    Recorded loaded ⟨s, t, a.calls.set k (.write i data w')⟩ := by
  obtain ⟨hk, -⟩ := List.getElem?_eq_some_iff.1 hcall
  have hnew := List.mem_set hk (.write i data w')
  have hlater : Later a ⟨s, t, a.calls.set k (.write i data w')⟩ :=
    (Turn.wrote hcall heffect).later ha.settled
  refine h.rest hcompleted (fun j data' v hmem hv => ?_) (fun j data' v hmem hv => ?_) ?_
  · rcases List.mem_or_eq_of_mem_set hmem with hold | heq
    · exact hold
    · cases heq
      rw [hw'] at hv
      cases hv
  · refine mem_set_of_ne hcall hmem ?_
    rintro heq
    cases heq
    rw [hw] at hv
    cases hv
  · have hcovers {j : PieceIndex} {data' : Bytes} (hold : a.store.Covers a.tree j data') :
        s.Covers t j data' :=
      hold.of_layout hlater.grows.layout hlater.keeps.place_eq
    rw [hlater.resume_eq]
    rcases heffect.resume ha.settled with hsame | ⟨bitmap, rfl, -⟩ | ⟨n, failure, rfl, -⟩ |
      ⟨j, c, rest, rfl⟩
    · refine .inl ⟨hsame, ?_⟩
      rintro ⟨j, data', v, hmem, hv, hold⟩
      by_cases heq : Call.write j data' v = .write i data w
      · cases heq
        exact ⟨i, data, w', hnew, hw', hcovers hold⟩
      · exact ⟨j, data', v, mem_set_of_ne hcall hmem heq, hv, hcovers hold⟩
    · cases hw
    · cases hw
    · -- a write that reaches the resume file goes to a segment at its place
      obtain ⟨⟨gs, hlaid, hleft⟩, hfile⟩ := ha.aims i data _ (List.mem_of_getElem? hcall)
      obtain ⟨path, hpath, hopened⟩ := hfile c rest rfl
      have hplace : a.tree.place path = a.tree.place a.store.resumePath := by
        refine Classical.byContradiction fun hplace => ?_
        exact ha.settled.ne_resume hopened.entry hplace rfl
      exact .inr ⟨i, data, w', hnew, hw',
        hcovers ⟨gs, hlaid, c.1, hleft c (List.mem_cons_self ..), path, hpath, hplace⟩⟩

theorem turn (h : a.Recorded loaded) (ha : a.Manned d) (hheld : a.Held)
    (hfault : e.fault? = none) (hturn : Turn a e b) : b.Recorded loaded := by
  have hlater := hturn.later ha.settled
  cases hturn with
  | written i data =>
      refine h.calm hlater rfl rfl (fun j data' w hmem hw => ?_)
        fun j data' w hmem => List.mem_append_left _ hmem
      rcases List.mem_append.1 hmem with hold | hnew
      · exact hold
      · cases List.mem_singleton.1 hnew
        rw [Writing.isMarked_write] at hw
        cases hw
  | read i start length =>
      refine h.calm hlater rfl rfl (fun j data' w hmem hw => ?_)
        fun j data' w hmem => List.mem_append_left _ hmem
      rcases List.mem_append.1 hmem with hold | hnew
      · exact hold
      · cases List.mem_singleton.1 hnew
  | absent => exact h
  | @wrote k fault i data w w' s t hcall heffect =>
      obtain rfl : fault = none := hfault
      have hmem := List.mem_of_getElem? hcall
      have hplace := h.place ha hcall heffect
      cases heffect with
      | placed => exact hplace rfl rfl rfl
      | opening hopen => exact hplace rfl rfl (Store.openSlot_store hopen).2.1
      | unopened hopen => exact hplace rfl rfl (Store.openSlot_store hopen).2.1
      | barred => exact hplace rfl rfl rfl
      | idle => exact hplace rfl rfl rfl
      | written => exact hplace rfl rfl rfl
      | torn => exact hplace rfl rfl rfl
      | waited => exact hplace rfl rfl rfl
      | marked j hfree =>
          obtain rfl : j = i := ha.tracks i data _ hmem
          exact h.set hheld hcall hfree
      | saved bitmap => exact h.save ha.settled hcall
      | closed n => exact h.close ha.settled hcall
      | @spoiled n failure error t hfailure ht =>
          obtain ⟨rfl, -⟩ := h.cutting i data n failure hmem
          simp at hfailure
      | ended result =>
          obtain ⟨hk, hget⟩ := List.getElem?_eq_some_iff.1 hcall
          rw [← hget, List.set_getElem_self]
          exact h
  | @took k fault i start length r r' s t hcall hstep =>
      refine h.calm hlater (Reading.step_store hstep).2.1
        ((Reading.step_handles ha.settled.handles hstep).1.content _) (fun j data w hmem _ => ?_)
        fun j data w hmem => mem_set_of_ne hcall hmem nofun
      rcases List.mem_or_eq_of_mem_set hmem with hold | hnew
      · exact hold
      · cases hnew
  | released file =>
      exact h.calm hlater rfl rfl (fun _ _ _ hmem _ => hmem) fun _ _ _ hmem => hmem

end Recorded

/-- The resume file when some piece was written and no call is at work on the file: it is the bitmap
in memory, which has the bits that were loaded and those of the pieces written since, and a store
opened now reports the same pieces.  Calls may be at work on their pieces.  Only where a file of the
torrent is the resume file itself, the calls that have a part of their piece there must be over. -/
theorem resume_file_exact {s : Store} {tree tree' : FileTree} {root name : List Char}
    (hopen : Store.open_ tree root d name = (.ok s, tree')) (acts : List Act)
    (hfaults : ∀ e ∈ acts, e.fault? = none)
    (hsome : ∃ i data, .write i data (.finished (.ok ())) ∈ ((idle s tree').run acts).calls)
    (hquiet : ∀ i data w, .write i data w ∈ ((idle s tree').run acts).calls →
      w.isRewriting = false)
    (hclear : ∀ i data w, .write i data w ∈ ((idle s tree').run acts).calls →
      s.Covers tree' i data → w = .finished (.ok ())) :
    let a := (idle s tree').run acts
    a.tree.readFile s.resumePath = .ok a.store.completed.bytes ∧
      a.store.completed.bytes.length = byteLength d.pieceCount ∧
      (∀ j, a.store.completed.bit j = true ↔ s.completed.bit j = true ∨
        ∃ i data, .write i data (.finished (.ok ())) ∈ a.calls ∧ i.toNat = j) ∧
      ∃ s', Store.open_ a.tree root d name = (.ok s', a.tree) ∧
        ∀ i, s'.hasPiece i = a.store.hasPiece i := by
  intro a
  have hsettled := Store.settled_open hopen
  have hall : a.Manned d ∧ a.Held ∧ a.Recorded s.completed := by
    refine run_moments (P := fun b => b.Manned d ∧ b.Held ∧ b.Recorded s.completed) ?_ ?_
    · exact ⟨manned_idle hopen, ⟨nofun, nofun⟩,
        ⟨fun _ h => h, fun _ h => .inl h, nofun, nofun, nofun⟩⟩
    · rintro e he b b' hturn ⟨hmanned, hheld, hrecorded⟩
      exact ⟨hmanned.turn hturn, hheld.turn hturn,
        hrecorded.turn hmanned hheld (hfaults e he) hturn⟩
  obtain ⟨hmanned, -, hrecorded⟩ := hall
  have hlater : Later (idle s tree') a := later_run hsettled acts
  have hresume : a.store.resume = s.resume := hlater.resume_eq
  have hexact : a.tree.content s.resume = a.store.completed.bytes := by
    rw [← hresume]
    refine (hrecorded.quiet hquiet hsome).resolve_right ?_
    rintro ⟨i, data, w, hmem, hw, hcovers⟩
    have hcovers := hcovers.of_layout hlater.grows.layout.symm
      fun path => (hlater.keeps.place_eq path).symm
    rw [hclear i data w hmem hcovers] at hw
    cases hw
  refine ⟨?_, hmanned.size, fun j => ⟨fun hj => ?_, ?_⟩, _, Store.open_again hopen hlater.keeps, ?_⟩
  · rw [((Store.open_spec hopen).2.1.keeps hlater.keeps).readFile, hexact]
  · refine (hrecorded.marked j hj).imp_right ?_
    rintro ⟨i, data, w, hmem, hw, hi⟩
    obtain rfl := Writing.eq_of_isMarked hw (hquiet i data w hmem)
    exact ⟨i, data, hmem, hi⟩
  · rintro (hj | ⟨i, data, hmem, rfl⟩)
    · exact hrecorded.kept j hj
    · exact hmanned.tracks i data _ hmem
  · intro i
    simp only [Store.hasPiece]
    rw [hexact, Store.bitmapOf_eq hmanned.size]

/-- Two pieces are written at the same time, over a resume file that is longer than the bitmap, and
one of them is about to be written again. -/
theorem resume_file_exact_two_writers :
    let d : Descriptor := ⟨⟨.zero 20⟩, 2, 1, [.zero 20, .zero 20], [⟨"a", 2⟩]⟩
    let tree : FileTree :=
      ⟨[([['t']], .directory), ([['t'], ['r']], .file 0)], [[0, 7, 7]], [], by decide, by decide⟩
    let acts : List Act := [.write 0 [1], .write 1 [2], .write 0 [1]] ++
      [0, 1, 0, 1, 0, 1, 0, 1, 0, 0, 1, 1, 1].map fun k => .proceed k none
    (∀ e ∈ acts, e.fault? = none) ∧
      ∃ s, Store.open_ tree ['t'] d ['r'] = (.ok s, tree) ∧
        let a := (idle s tree).run acts
        (∃ i data, .write i data (.finished (.ok ())) ∈ a.calls) ∧
        (∀ i data w, .write i data w ∈ a.calls → w.isRewriting = false) ∧
        (∀ i data w, .write i data w ∈ a.calls → s.Covers tree i data →
          w = .finished (.ok ())) ∧
        a.tree.readFile s.resumePath = .ok [0xC0] ∧
        ∃ s', Store.open_ a.tree ['t'] d ['r'] = (.ok s', a.tree) ∧ s'.hasPiece 0 = true ∧
          s'.hasPiece 1 = true := by
  have hopen : Store.open_
    ⟨[([['t']], .directory), ([['t'], ['r']], .file 0)], [[0, 7, 7]], [], by decide, by decide⟩
    ['t'] ⟨⟨.zero 20⟩, 2, 1, [.zero 20, .zero 20], [⟨"a", 2⟩]⟩ ['r'] = (.ok _, _) := rfl
  have hexact := resume_file_exact hopen ([.write 0 [1], .write 1 [2], .write 0 [1]] ++
    [0, 1, 0, 1, 0, 1, 0, 1, 0, 0, 1, 1, 1].map fun k => .proceed k none) (by decide)
  generalize hrun : (idle _ _).run _ = a at hexact
  have hcalls : a.calls = [.write 0 [1] (.finished (.ok ())), .write 1 [2] (.finished (.ok ())),
      .write 0 [1] (.placing 0 [(⟨0, 0, 1⟩, [1])])] := by
    rw [← hrun]
    decide +kernel
  have hbytes : a.store.completed.bytes = [0xC0] := by
    rw [← hrun]
    decide +kernel
  have hsome : ∃ i data, .write i data (.finished (.ok ())) ∈ a.calls :=
    ⟨0, [1], hcalls ▸ List.mem_cons_self ..⟩
  have hquiet : ∀ i data w, .write i data w ∈ a.calls → w.isRewriting = false := by
    intro i data w hmem
    simp only [hcalls, List.mem_cons, Call.write.injEq, List.not_mem_nil, or_false] at hmem
    rcases hmem with ⟨-, -, rfl⟩ | ⟨-, -, rfl⟩ | ⟨-, -, rfl⟩ <;> rfl
  refine ⟨by decide, _, hopen, ?_⟩
  dsimp only
  rw [hrun]
  obtain ⟨hread, -, -, s', hagain, hbits⟩ := hexact hsome hquiet
    fun i data w _ hcovers => absurd hcovers.mem_places (by decide)
  refine ⟨hsome, hquiet, fun i data w _ hcovers => absurd hcovers.mem_places (by decide),
    hbytes ▸ hread, s', hagain, ?_, ?_⟩
  · rw [hbits, Store.hasPiece, Bitfield.has, Bitfield.bit_eq, hbytes]
    decide
  · rw [hbits, Store.hasPiece, Bitfield.has, Bitfield.bit_eq, hbytes]
    decide

/-- A file of the torrent is at the place of the resume file.  One piece is written, and the other
has laid its first byte over the resume file, for which it is not at work on that file.  In the end
both are written. -/
theorem resume_file_laid_over :
    let d : Descriptor := ⟨⟨.zero 20⟩, 4, 2, [.zero 20, .zero 20], [⟨"r", 3⟩, ⟨"b", 1⟩]⟩
    let acts : List Act := [.write 0 [97, 97], .write 1 [98, 98]] ++
      [0, 0, 0, 0, 0, 0, 1, 1].map fun k => .proceed k none
    let rest : List Act := List.replicate 6 (.proceed 1 none)
    d.check = .ok () ∧ (∀ e ∈ acts ++ rest, e.fault? = none) ∧
      ∃ s tree, Store.open_ (.empty []) ['t'] d ['r'] = (.ok s, tree) ∧
        let a := (idle s tree).run acts
        .write 0 [97, 97] (.finished (.ok ())) ∈ a.calls ∧
        (∀ i data w, .write i data w ∈ a.calls → w.isRewriting = false) ∧
        a.store.completed.bytes = [0x80] ∧
        a.tree.readFile s.resumePath = .ok [0x80, 0, 98] ∧
        (a.run rest).calls = [.write 0 [97, 97] (.finished (.ok ())),
          .write 1 [98, 98] (.finished (.ok ()))] := by
  have hopen : Store.open_ (.empty []) ['t']
    ⟨⟨.zero 20⟩, 4, 2, [.zero 20, .zero 20], [⟨"r", 3⟩, ⟨"b", 1⟩]⟩ ['r'] = (.ok _, _) := rfl
  refine ⟨rfl, by decide, _, _, hopen, ?_⟩
  dsimp only
  generalize hrun : (idle _ _).run _ = a
  have hcalls : a.calls = [.write 0 [97, 97] (.finished (.ok ())),
      .write 1 [98, 98] (.placing 1 [(⟨1, 0, 1⟩, [98])])] := by
    rw [← hrun]
    decide +kernel
  refine ⟨hcalls ▸ List.mem_cons_self .., fun i data w hmem => ?_, ?_⟩
  · simp only [hcalls, List.mem_cons, Call.write.injEq, List.not_mem_nil, or_false] at hmem
    rcases hmem with ⟨-, -, rfl⟩ | ⟨-, -, rfl⟩ <;> rfl
  · rw [← hrun]
    decide +kernel

end Archive

end Torrent
