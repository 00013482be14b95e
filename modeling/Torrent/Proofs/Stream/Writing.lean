import Torrent.Connection

/-!
# Writing over a connection

Writing loses nothing of what is still to come in, and it fails only where the
stream takes no more bytes.  `Connection.Spares` says this of anything that is
done over a connection without reading.
-/

namespace Torrent

namespace Stream

variable {s : Stream}

/-- A stream that takes whatever is written to it. -/
structure TakesAll (s : Stream) : Prop where
  unshut : s.shut = false
  perWrite : s.perWrite ≠ some 0
  capacity : s.capacity = none

/-- Such a stream never takes less than it is given. -/
theorem TakesAll.accepts_eq (h : s.TakesAll) (n : Nat) : s.accepts n = n := by
  have hshut : ¬ s.shut = true := by
    rw [h.unshut]
    decide
  rw [accepts, if_neg hshut, if_neg h.perWrite, h.capacity]

theorem TakesAll.write (h : s.TakesAll) (b : Bytes) : (s.write b).2.TakesAll :=
  ⟨h.unshut, h.perWrite, h.capacity⟩

theorem TakesAll.receive {α : Type} (h : s.TakesAll) (r : Receiver α) (deadline : Option Nat) :
    (s.receive r deadline).2.TakesAll :=
  ⟨h.unshut, h.perWrite, h.capacity⟩

/-- A stream that did not take all that was written takes no more. -/
theorem accepts_write {b : Bytes} (h : (s.write b).1 = false) : (s.write b).2.accepts 1 = 0 := by
  have hlt : s.accepts b.length < b.length := Nat.lt_of_not_le (of_decide_eq_false h)
  simp only [write, accepts] at hlt ⊢
  split
  next => rfl
  next hshut =>
    rw [if_neg hshut] at hlt
    split
    next => rfl
    next hper =>
      rw [if_neg hper] at hlt
      cases hcapacity : s.capacity with
      | none =>
          rw [hcapacity] at hlt
          exact absurd hlt (Nat.lt_irrefl _)
      | some total =>
          simp only [hcapacity] at hlt ⊢
          rw [List.length_append, List.length_take]
          omega

end Stream

namespace Connection

variable {α : Type} {c : Connection}

/-- Done over a connection without reading.  It comes to something that has a property, or fails
because the stream takes no more bytes. -/
structure Spares (c : Connection) (P : α → Prop) (done : Except PeerError α × Connection) :
    Prop where
  incoming : done.2.stream.incoming = c.stream.incoming
  limit : done.2.limit = c.limit
  takesAll : c.stream.TakesAll → done.2.stream.TakesAll
  result : (∃ a, done.1 = .ok a ∧ P a) ∨
    done.1 = .error (.io done.2.stream.refusal) ∧ done.2.stream.accepts 1 = 0

theorem spares_ok {P : α → Prop} {a : α} (h : P a) (s : Session) :
    c.Spares P (.ok a, { c with session := s }) :=
  ⟨rfl, rfl, id, .inl ⟨a, rfl, h⟩⟩

theorem send_spares (c : Connection) (m : Message) : c.Spares (fun _ => True) (c.send m) := by
  rw [send]
  split
  next s hwrite =>
    obtain ⟨-, rfl⟩ := Prod.mk.inj hwrite
    exact ⟨rfl, rfl, fun h => h.write _, .inl ⟨(), rfl, trivial⟩⟩
  next s hwrite =>
    have hfailed := congrArg Prod.fst hwrite
    obtain ⟨-, rfl⟩ := Prod.mk.inj hwrite
    exact ⟨rfl, rfl, fun h => h.write _, .inr ⟨rfl, Stream.accepts_write hfailed⟩⟩

/-- A message is written as far as the stream takes its frame. -/
theorem send_eq (c : Connection) (m : Message) :
    (c.send m).2 = { c with stream := (c.stream.write (Frame.encode m)).2 } ∧
      ((c.send m).1 = .ok () ↔
        (Frame.encode m).length ≤ c.stream.accepts (Frame.encode m).length) := by
  rw [send]
  split
  next s hwrite =>
    obtain ⟨htaken, rfl⟩ := Prod.mk.inj hwrite
    exact ⟨rfl, by simpa using htaken⟩
  next s hwrite =>
    obtain ⟨htaken, rfl⟩ := Prod.mk.inj hwrite
    exact ⟨rfl, by simpa using htaken⟩

/-- What goes out of a message is the front of its frame, and all of it where writing succeeds. -/
theorem sent_send (c : Connection) (m : Message) :
    (c.send m).2.session = c.session ∧
      ((c.send m).1 = .ok () → (c.send m).2.stream.sent = c.stream.sent ++ Frame.encode m) ∧
      ∃ n, (c.send m).2.stream.sent = c.stream.sent ++ (Frame.encode m).take n := by
  obtain ⟨hsend, hok⟩ := send_eq c m
  rw [hsend]
  refine ⟨rfl, fun hsent => ?_, _, rfl⟩
  exact congrArg (c.stream.sent ++ ·) (List.take_of_length_le (hok.1 hsent))

section

variable {β : Type} {P : α → Prop} {Q : β → Prop} {first : Except PeerError α × Connection}
  {c₁ : Connection} {a : α} {e : PeerError}

theorem Spares.of_ok (h : c.Spares P first) (hfirst : first = (.ok a, c₁)) : P a := by
  subst hfirst
  rcases h.result with ⟨a', hok, ha⟩ | ⟨hfailed, -⟩
  · cases hok
    exact ha
  · cases hfailed

theorem Spares.of_error (h : c.Spares P first) (hfirst : first = (.error e, c₁)) :
    e = .io c₁.stream.refusal ∧ c₁.stream.accepts 1 = 0 := by
  subst hfirst
  rcases h.result with ⟨a, hok, -⟩ | ⟨hfailed, hfull⟩
  · cases hok
  · exact ⟨Except.error.inj hfailed, hfull⟩

/-- Where the first part fails, the whole fails. -/
theorem Spares.failed (h : c.Spares P first) (hfirst : first = (.error e, c₁)) :
    c.Spares Q (.error e, c₁) := by
  obtain ⟨rfl, hfull⟩ := h.of_error hfirst
  subst hfirst
  exact ⟨h.incoming, h.limit, h.takesAll, .inr ⟨rfl, hfull⟩⟩

/-- What follows the first part spares what that left. -/
theorem Spares.followed {done : Except PeerError β × Connection} (h : c.Spares P first)
    (hfirst : first = (.ok a, c₁)) (hnext : c₁.Spares Q done) : c.Spares Q done := by
  subst hfirst
  exact ⟨hnext.incoming.trans h.incoming, hnext.limit.trans h.limit,
    fun hall => hnext.takesAll (h.takesAll hall), hnext.result⟩

end

/-- Requests keep whatever a request that goes out keeps. -/
theorem requestBlocks_keeps {P : Attempt → Prop} (hkeeps : ∀ a r, P a → P (a.afterRequest r))
    {a : Attempt} (h : P a) (n : Nat) : c.Spares P (c.requestBlocks a n) := by
  induction n generalizing c a with
  | zero => exact spares_ok h c.session
  | succ n ih =>
      rw [requestBlocks]
      split
      next => exact spares_ok h c.session
      next r _ =>
        have hsend := c.send_spares (.request r.index r.start r.length)
        split
        next hfailed => exact hsend.failed hfailed
        next hsent => exact hsend.followed hsent (ih (hkeeps a r h))

/-- A message that was obeyed had its effect, and a reply to it changes nothing else. -/
theorem attempt_of_handle {a a' : Attempt} {serve : Serve} {stopwatch : Nat} {m : Message}
    {c' : Connection} (h : c.handle a serve stopwatch m = (.ok a', c')) :
    (∃ request, a.handle c.session stopwatch m = .ok (a', c'.session, request)) ∧
      c'.stream.incoming = c.stream.incoming ∧ c'.limit = c.limit := by
  rw [handle] at h
  split at h
  next => cases h
  next a₁ s₁ request heffect =>
    simp only at h
    split at h
    next =>
      cases h
      exact ⟨⟨request, heffect⟩, rfl, rfl⟩
    next reply _ =>
      have hsend := send_spares { c with session := s₁ } reply
      have hsession := (sent_send { c with session := s₁ } reply).1
      split at h
      next => cases h
      next c₁ hsent =>
        cases h
        rw [hsent] at hsend hsession
        exact ⟨⟨request, hsession ▸ heffect⟩, hsend.incoming, hsend.limit⟩

end Connection

end Torrent
