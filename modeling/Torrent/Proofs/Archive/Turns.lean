import Mathlib.Control.Monad.Basic
import Torrent.Proofs.Store.Reading
import Torrent.Store.Archive

/-!
# Turns of calls

`Archive.Turn` lists what an act can do to an archive: a call begins, a call has an
effect, or a file is closed.  Every other fact on runs is read off that list.

Whatever the calls are, names are only added, the layout of the store stays and no
piece that is there is reported as missing again (`Archive.Later`).
-/

namespace Torrent

deriving instance DecidableEq for Writing, Call

/-! ## Closing files -/

namespace Store

theorem getElem?_release (s : Store) (file k : Nat) :
    (s.release file).slots[k]? =
      s.slots[k]?.map fun slot => if file = k then { slot with handle := none } else slot := by
  simp only [release]
  rw [List.getElem?_modify]
  rfl

theorem layout_release (s : Store) (file : Nat) : (s.release file).layout = s.layout := by
  have hslots : ((s.release file).slots.map fun slot => { slot with handle := none }) =
      s.slots.map fun slot => { slot with handle := none } := by
    refine List.ext_getElem? fun k => ?_
    rw [List.getElem?_map, List.getElem?_map, getElem?_release, Option.map_map]
    congr 1
    funext slot
    simp only [Function.comp]
    split <;> rfl
  simp only [layout]
  rw [hslots]
  rfl

theorem Handles.release {s : Store} {t : FileTree} (h : s.Handles t) (file : Nat) :
    (s.release file).Handles t := by
  intro slot hslot id hid
  obtain ⟨k, hk⟩ := List.getElem?_of_mem hslot
  rw [getElem?_release] at hk
  obtain ⟨slot', hslot', rfl⟩ := Option.map_eq_some_iff.1 hk
  split at hid
  next => cases hid
  next hne =>
    rw [if_neg hne]
    exact h slot' (List.mem_of_getElem? hslot') id hid

/-- Closing a store is closing its files one after the other. -/
theorem close_eq_release (s : Store) :
    s.close = (List.range s.slots.length).foldl release s := by
  -- after `n` files, the first `n` are closed
  have hfront : ∀ n, ∃ slots, (List.range n).foldl release s = { s with slots := slots } ∧
      ∀ k, slots[k]? =
        s.slots[k]?.map fun slot => if k < n then { slot with handle := none } else slot := by
    intro n
    induction n with
    | zero => exact ⟨s.slots, rfl, fun k => by simp⟩
    | succ n ih =>
        obtain ⟨slots, hstore, hslots⟩ := ih
        rw [List.range_succ, List.foldl_append, hstore]
        refine ⟨_, rfl, fun k => ?_⟩
        show (release { s with slots := slots } n).slots[k]? = _
        rw [getElem?_release, hslots, Option.map_map]
        congr 1
        funext slot
        have hlt : k < n + 1 ↔ n = k ∨ k < n := by omega
        by_cases hk : n = k
        · simp [hk]
        · simp [hk, hlt]
  obtain ⟨slots, hstore, hslots⟩ := hfront s.slots.length
  rw [hstore]
  simp only [close]
  congr 1
  refine List.ext_getElem? fun k => ?_
  rw [List.getElem?_map, hslots]
  by_cases hk : k < s.slots.length
  · simp [hk]
  · simp [List.getElem?_eq_none (Nat.le_of_not_lt hk)]

end Store

namespace Archive

/-! ## What an act can do -/

/-- The failure put upon the effect of an act. -/
def Act.fault? : Act → Option Fault
  | .proceed _ fault => fault
  | _ => none

/-- What an act can make of an archive. -/
inductive Turn (a : Archive) : Act → Archive → Prop
  | written (i : PieceIndex) (data : Bytes) :
    Turn a (.write i data) { a with calls := a.calls ++ [.write i data (a.store.write i data)] }
  | read (i : PieceIndex) (start length : Nat) :
    Turn a (.read i start length)
      { a with calls := a.calls ++ [.read i start length (a.store.read i start length)] }
  | absent {k : Nat} (fault : Option Fault) (hcall : a.calls[k]? = none) :
    Turn a (.proceed k fault) a
  | wrote {k : Nat} {fault : Option Fault} {i : PieceIndex} {data : Bytes} {w w' : Writing}
    {s : Store} {t : FileTree} (hcall : a.calls[k]? = some (.write i data w))
    (heffect : Writing.Effect fault a.store a.tree w w' s t) :
    Turn a (.proceed k fault) ⟨s, t, a.calls.set k (.write i data w')⟩
  | took {k : Nat} {fault : Option Fault} {i : PieceIndex} {start length : Nat}
    {r r' : Reading} {s : Store} {t : FileTree}
    (hcall : a.calls[k]? = some (.read i start length r))
    (hstep : r.step a.store a.tree = (r', s, t)) :
    Turn a (.proceed k fault) ⟨s, t, a.calls.set k (.read i start length r')⟩
  | released (file : Nat) : Turn a (.release file) { a with store := a.store.release file }

theorem turn_act (a : Archive) (e : Act) : Turn a e (a.act e) := by
  cases e with
  | write i data => exact .written i data
  | read i start length => exact .read i start length
  | proceed k fault =>
      simp only [act, turn]
      split
      next hcall => exact .absent fault hcall
      next hcall => exact .wrote hcall (Writing.step_effect rfl)
      next hcall => exact .took hcall rfl
  | release file => exact .released file

/-- What holds in the beginning and is kept by every act that is taken holds in the end. -/
theorem run_moments {P : Archive → Prop} {a : Archive} {acts : List Act} (h : P a)
    (hturn : ∀ e ∈ acts, ∀ b b', Turn b e b' → P b → P b') : P (a.run acts) := by
  induction acts generalizing a with
  | nil => exact h
  | cons e acts ih =>
      refine ih (hturn e (List.mem_cons_self ..) a _ (turn_act a e) h) ?_
      intro e' he'
      exact hturn e' (List.mem_cons_of_mem _ he')

theorem Turn.grows {a b : Archive} {e : Act} (h : Turn a e b) : a.store.Grows b.store := by
  cases h with
  | wrote hcall heffect => exact heffect.grows
  | took hcall hstep => exact Reading.step_grows hstep
  | released file => exact Store.grows_of_completed_eq (a.store.layout_release file) rfl
  | _ => exact .refl a.store

theorem layout_run (a : Archive) (acts : List Act) :
    (a.run acts).store.layout = a.store.layout :=
  run_moments (P := fun b => b.store.layout = a.store.layout) rfl
    fun _ _ _ _ hturn h => hturn.grows.layout.trans h

theorem run_append (a : Archive) (before after : List Act) :
    a.run (before ++ after) = (a.run before).run after := by
  simp only [run]
  rw [List.foldl_append]

/-! ## Later moments -/

/-- A later moment of an archive, as far as its store and its files tell. -/
structure Later (a b : Archive) : Prop where
  settled : b.store.Settled b.tree
  keeps : a.tree.Keeps b.tree
  grows : a.store.Grows b.store

variable {a b c : Archive} {e : Act}

theorem Later.refl (h : a.store.Settled a.tree) : Later a a := ⟨h, .refl _, .refl _⟩

theorem Later.trans (h : Later a b) (h' : Later b c) : Later a c :=
  ⟨h'.settled, h.keeps.trans h'.keeps, h.grows.trans h'.grows⟩

theorem Later.housed (h : Later a b) (ha : a.store.Housed a.tree) : b.store.Housed b.tree :=
  ha.keeps h.grows.layout h.keeps h.settled

theorem Turn.later (h : Turn a e b) (ha : a.store.Settled a.tree) : Later a b := by
  cases h with
  | written => exact ⟨ha, .refl _, .refl _⟩
  | read => exact ⟨ha, .refl _, .refl _⟩
  | absent => exact .refl ha
  | wrote hcall heffect => exact ⟨heffect.settled ha, heffect.keeps ha.handles, heffect.grows⟩
  | took hcall hstep =>
      have hextends := (Reading.step_handles ha.handles hstep).1
      exact ⟨Reading.step_settled ha hstep, hextends.toKeeps, Reading.step_grows hstep⟩
  | released file =>
      have hlayout := a.store.layout_release file
      refine ⟨ha.of_layout hlayout (ha.handles.release file), .refl _, ?_⟩
      exact Store.grows_of_completed_eq hlayout rfl

theorem later_run (ha : a.store.Settled a.tree) (acts : List Act) : Later a (a.run acts) :=
  run_moments (P := Later a) (.refl ha) fun _ _ _ _ hturn h => h.trans (hturn.later h.settled)

theorem Later.resume_eq (h : Later a b) : b.store.resume = a.store.resume :=
  Store.resume_of_layout h.grows.layout

/-! ## Calls -/

/-- A call of writing was there, begins, or has an effect. -/
theorem Turn.writing (h : Turn a e b) {i : PieceIndex} {data : Bytes} {w' : Writing}
    (hcall : .write i data w' ∈ b.calls) :
    .write i data w' ∈ a.calls ∨
      (e = .write i data ∧ w' = b.store.write i data) ∨
      ∃ k fault w, e = .proceed k fault ∧ a.calls[k]? = some (.write i data w) ∧
        Writing.Effect fault a.store a.tree w w' b.store b.tree := by
  cases h with
  | written =>
      rcases List.mem_append.1 hcall with hcall | hcall
      · exact .inl hcall
      · cases List.mem_singleton.1 hcall
        exact .inr (.inl ⟨rfl, rfl⟩)
  | read =>
      rcases List.mem_append.1 hcall with hcall | hcall
      · exact .inl hcall
      · cases List.mem_singleton.1 hcall
  | absent => exact .inl hcall
  | wrote hbefore heffect =>
      rcases List.mem_or_eq_of_mem_set hcall with hcall | hcall
      · exact .inl hcall
      · cases hcall
        exact .inr (.inr ⟨_, _, _, rfl, hbefore, heffect⟩)
  | took hbefore hstep =>
      rcases List.mem_or_eq_of_mem_set hcall with hcall | hcall
      · exact .inl hcall
      · cases hcall
  | released => exact .inl hcall

/-- A piece is reported anew by a call that sets its bit. -/
theorem Turn.hasPiece (h : Turn a e b) {i : PieceIndex} (hi : b.store.hasPiece i = true) :
    a.store.hasPiece i = true ∨ ∃ j data, .write j data (.marking i) ∈ a.calls := by
  cases h with
  | wrote hcall heffect =>
      rcases heffect.hasPiece hi with hold | rfl
      · exact .inl hold
      · exact .inr ⟨_, _, List.mem_of_getElem? hcall⟩
  | took hcall hstep =>
      simp only [Store.hasPiece] at hi ⊢
      rw [(Reading.step_store hstep).2.1] at hi
      exact .inl hi
  | _ => exact .inl hi

/-- A call of reading was there, begins, or has an effect. -/
theorem Turn.reads (h : Turn a e b) {i : PieceIndex} {start length : Nat} {r' : Reading}
    (hcall : .read i start length r' ∈ b.calls) :
    .read i start length r' ∈ a.calls ∨
      (e = .read i start length ∧ r' = b.store.read i start length) ∨
      ∃ r, .read i start length r ∈ a.calls ∧ r.step a.store a.tree = (r', b.store, b.tree) := by
  cases h with
  | written =>
      rcases List.mem_append.1 hcall with hcall | hcall
      · exact .inl hcall
      · cases List.mem_singleton.1 hcall
  | read =>
      rcases List.mem_append.1 hcall with hcall | hcall
      · exact .inl hcall
      · cases List.mem_singleton.1 hcall
        exact .inr (.inl ⟨rfl, rfl⟩)
  | absent => exact .inl hcall
  | wrote hbefore heffect =>
      rcases List.mem_or_eq_of_mem_set hcall with hcall | hcall
      · exact .inl hcall
      · cases hcall
  | took hbefore hstep =>
      rcases List.mem_or_eq_of_mem_set hcall with hcall | hcall
      · exact .inl hcall
      · cases hcall
        exact .inr (.inr ⟨_, List.mem_of_getElem? hbefore, hstep⟩)
  | released => exact .inl hcall

/-- A certain call of reading stays as it is, or has an effect. -/
theorem Turn.reading (h : Turn a e b) {k : Nat} {i : PieceIndex} {start length : Nat}
    {r : Reading} (hcall : a.calls[k]? = some (.read i start length r)) :
    ((∀ fault, e ≠ .proceed k fault) ∧ b.calls[k]? = some (.read i start length r)) ∨
      ∃ fault r', e = .proceed k fault ∧ r.step a.store a.tree = (r', b.store, b.tree) ∧
        b.calls[k]? = some (.read i start length r') := by
  obtain ⟨hk, -⟩ := List.getElem?_eq_some_iff.1 hcall
  cases h with
  | written => exact .inl ⟨nofun, by rw [List.getElem?_append_left hk, hcall]⟩
  | read => exact .inl ⟨nofun, by rw [List.getElem?_append_left hk, hcall]⟩
  | @absent k' fault hnone =>
      refine .inl ⟨fun fault' heq => ?_, hcall⟩
      cases heq
      rw [hnone] at hcall
      cases hcall
  | @wrote k' fault j data w w' s t hcall' heffect =>
      have hne : k' ≠ k := by
        rintro rfl
        rw [hcall'] at hcall
        cases hcall
      refine .inl ⟨fun fault' heq => hne (by cases heq; rfl), ?_⟩
      rw [List.getElem?_set_ne hne, hcall]
  | @took k' fault j start' length' r₁ r' s t hcall' hstep =>
      by_cases hne : k' = k
      · subst hne
        rw [hcall'] at hcall
        cases hcall
        exact .inr ⟨fault, r', rfl, hstep, List.getElem?_set_self hk⟩
      · refine .inl ⟨fun fault' heq => hne (by cases heq; rfl), ?_⟩
        rw [List.getElem?_set_ne hne, hcall]
  | released => exact .inl ⟨nofun, hcall⟩

end Archive

end Torrent
