import Torrent.Proofs.Archive.Turns

/-!
# Who has the resume file

A call takes the resume file when no other call has it, and gives it back when it has
cut the file.  So there is never more than one call at work on it.

This is true of every lock that is only passed on like that (`Lock.step`), and a step
of writing passes it on like that whoever the writers are (`Writing.Effect.passes`).
For an archive they are its calls (`Archive.Held`).
-/

namespace Torrent

/-! ## Locks -/

/-- At most one has the lock, and the flag is up as long as it has. -/
structure Lock (flag : Bool) (has : Nat → Prop) : Prop where
  busy : ∀ k, has k → flag = true
  single : ∀ k k', has k → has k' → k = k'

/-- What a step may do to a lock: it stays with whom it is, it is taken when it is free, or it is
given back. -/
inductive Lock.Passes (flag : Bool) (has : Nat → Prop) (flag' : Bool) (has' : Nat → Prop) : Prop
  | kept (hflag : flag' = flag) (hold : ∀ k, has' k → has k)
  | taken (hfree : flag = false) (htaken : flag' = true) (k : Nat)
    (hold : ∀ k', has' k' → k' = k ∨ has k')
  | given (k : Nat) (hk : has k) (hold : ∀ k', has' k' → k' ≠ k ∧ has k')

theorem Lock.step {flag flag' : Bool} {has has' : Nat → Prop} (h : Lock flag has)
    (hpasses : Lock.Passes flag has flag' has') : Lock flag' has' := by
  cases hpasses with
  | kept hflag hold =>
      exact ⟨fun k hk => hflag ▸ h.busy k (hold k hk),
        fun k k' hk hk' => h.single k k' (hold k hk) (hold k' hk')⟩
  | taken hfree htaken k hold =>
      have honly : ∀ k', has' k' → k' = k := by
        intro k' hk'
        refine (hold k' hk').resolve_right fun hold => ?_
        rw [h.busy k' hold] at hfree
        cases hfree
      exact ⟨fun _ _ => htaken, fun k' k'' hk' hk'' => (honly k' hk').trans (honly k'' hk'').symm⟩
  | given k hk hold =>
      have hnone : ∀ k', ¬has' k' :=
        fun k' hk' => (hold k' hk').1 (h.single k' k (hold k' hk').2 hk)
      exact ⟨fun k' hk' => absurd hk' (hnone k'), fun k' _ hk' => absurd hk' (hnone k')⟩

namespace Writing.Effect

variable {fault : Option Fault} {s s' : Store} {t t' : FileTree} {w w' : Writing}

/-- The resume file is taken when it is free, and given back by the call that has it. -/
theorem lock (h : Effect fault s t w w' s' t') :
    s'.rewriting = s.rewriting ∧ w'.isRewriting = w.isRewriting ∨
      s.rewriting = false ∧ s'.rewriting = true ∧ w.isRewriting = false ∨
      w.isRewriting = true ∧ w'.isRewriting = false := by
  cases h with
  | opening hopen => exact .inl ⟨(Store.openSlot_store hopen).2.2, rfl⟩
  | unopened hopen => exact .inl ⟨(Store.openSlot_store hopen).2.2, rfl⟩
  | marked i hfree => exact .inr (.inl ⟨hfree, rfl, rfl⟩)
  | closed => exact .inr (.inr ⟨rfl, rfl⟩)
  | spoiled => exact .inr (.inr ⟨rfl, rfl⟩)
  | _ => exact .inl ⟨rfl, rfl⟩

/-- A step of the writer with a number passes the resume file on, if all others stay as they are. -/
theorem passes (h : Effect fault s t w w' s' t') {has has' : Nat → Prop} {k : Nat}
    (hbefore : w.isRewriting = true → has k)
    (hafter : ∀ k', has' k' → k' = k ∧ w'.isRewriting = true ∨ k' ≠ k ∧ has k') :
    Lock.Passes s.rewriting has s'.rewriting has' := by
  rcases h.lock with ⟨hsame, hw⟩ | ⟨hfree, htaken, -⟩ | ⟨hw, hw'⟩
  · refine .kept hsame fun k' hk' => ?_
    rcases hafter k' hk' with ⟨rfl, hrewriting⟩ | ⟨-, hold⟩
    · exact hbefore (hw ▸ hrewriting)
    · exact hold
  · refine .taken hfree htaken k fun k' hk' => ?_
    exact (hafter k' hk').imp And.left And.right
  · refine .given k (hbefore hw) fun k' hk' => ?_
    refine (hafter k' hk').resolve_left ?_
    rintro ⟨-, hrewriting⟩
    rw [hw'] at hrewriting
    cases hrewriting

end Writing.Effect

namespace Archive

variable {a b : Archive} {e : Act} {k : Nat}

/-- A call is at work on the resume file. -/
def Rewrites (a : Archive) (k : Nat) : Prop :=
  ∃ i data w, a.calls[k]? = some (.write i data w) ∧ w.isRewriting = true

/-- At most one call is at work on the resume file, and the store knows of it. -/
structure Held (a : Archive) : Prop where
  busy : ∀ k, a.Rewrites k → a.store.rewriting = true
  single : ∀ k k', a.Rewrites k → a.Rewrites k' → k = k'

theorem Rewrites.of_append {c : Call} {s : Store} {t : FileTree}
    (h : Rewrites ⟨s, t, a.calls ++ [c]⟩ k)
    (hc : ∀ i data w, c = .write i data w → w.isRewriting = false) : a.Rewrites k := by
  obtain ⟨i, data, w, hcall, hw⟩ := h
  dsimp only at hcall
  rw [List.getElem?_append] at hcall
  split at hcall
  next => exact ⟨i, data, w, hcall, hw⟩
  next =>
    have hmem := List.mem_singleton.1 (List.mem_of_getElem? hcall)
    rw [hc i data w hmem.symm] at hw
    cases hw

theorem Rewrites.of_set {c : Call} {s : Store} {t : FileTree} {k' : Nat}
    (h : Rewrites ⟨s, t, a.calls.set k' c⟩ k) :
    (k' = k ∧ ∃ i data w, c = .write i data w ∧ w.isRewriting = true) ∨ k' ≠ k ∧ a.Rewrites k := by
  obtain ⟨i, data, w, hcall, hw⟩ := h
  dsimp only at hcall
  by_cases hk : k' = k
  · refine .inl ⟨hk, i, data, w, ?_, hw⟩
    rw [hk, List.getElem?_set] at hcall
    split at hcall
    next =>
      split at hcall
      next => simpa using hcall
      next => cases hcall
    next hne => exact absurd rfl hne
  · rw [List.getElem?_set_ne hk] at hcall
    exact .inr ⟨hk, i, data, w, hcall, hw⟩

/-- A turn passes the resume file on. -/
theorem Turn.passes (h : Turn a e b) :
    Lock.Passes a.store.rewriting a.Rewrites b.store.rewriting b.Rewrites := by
  cases h with
  | written i data =>
      refine .kept rfl fun k hk => hk.of_append fun j data' w heq => ?_
      cases heq
      exact Writing.isRewriting_write _ _ _
  | read => exact .kept rfl fun k hk => hk.of_append nofun
  | absent => exact .kept rfl fun k hk => hk
  | @wrote k fault i data w w' s t hcall heffect =>
      refine heffect.passes (fun hw => ⟨i, data, w, hcall, hw⟩) fun k' hk' => ?_
      rcases hk'.of_set with ⟨rfl, j, data', w'', heq, hw⟩ | ⟨hne, hold⟩
      · cases heq
        exact .inl ⟨rfl, hw⟩
      · exact .inr ⟨Ne.symm hne, hold⟩
  | took hcall hstep =>
      refine .kept (Reading.step_store hstep).2.2 fun k hk => ?_
      rcases hk.of_set with ⟨-, i, data, w, heq, -⟩ | ⟨-, hold⟩
      · cases heq
      · exact hold
  | released => exact .kept rfl fun k hk => hk

theorem Held.turn (h : a.Held) (hturn : Turn a e b) : b.Held := by
  have hlock := Lock.step ⟨h.busy, h.single⟩ hturn.passes
  exact ⟨hlock.busy, hlock.single⟩

end Archive

end Torrent
