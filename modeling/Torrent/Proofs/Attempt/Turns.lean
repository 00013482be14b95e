import Torrent.Proofs.Attempt.Taken
import Torrent.Proofs.Stream.Framing
import Torrent.Proofs.Stream.Writing

/-!
# Fetching turn by turn

Fetching a piece is a loop.  A `Turn` is one round of it that comes to its end, and
`Turns` are some of them one after the other.  Fetching goes through its turns
(`Connection.Turns.fetchWithin`), and takes them until the piece is there or something
fails (`Connection.exists_turns_of_fetchWithin`).

What a turn does is said once (`Connection.Turn.effect`): a message that is next on the
stream suits the piece, and its block is taken.
-/

namespace Torrent

namespace Connection

/-- One turn of fetching.  The piece is not there yet, requests go out, and the message that is read
next is obeyed. -/
inductive Turn (moment : Moment) (c : Connection) (a : Attempt) (m : Message) (c' : Connection)
    (a' : Attempt) : Prop
  | turn {a₁ : Attempt} {c₁ c₂ : Connection} (hmore : a.isDone = false)
    (hrequests : c.requestBlocks { a with state := .requesting } a.spec.length.toNat = (.ok a₁, c₁))
    (hread : c₁.read none = (.ok m, c₂))
    (hobeyed : c₂.handle { a₁ with state := .awaiting } moment.serve moment.stopwatch m =
      (.ok a', c'))

/-- Turns of fetching, and the messages that were obeyed in them. -/
inductive Turns (moments : Nat → Moment) (k : Nat) (c : Connection) (a : Attempt) :
    List Message → Connection → Attempt → Prop
  | start : Turns moments k c a [] c a
  | turn {ms : List Message} {m : Message} {c₁ c₂ : Connection} {a₁ a₂ : Attempt}
    (hturns : Turns moments k c a ms c₁ a₁) (hturn : Turn (moments (k + ms.length)) c₁ a₁ m c₂ a₂) :
    Turns moments k c a (ms ++ [m]) c₂ a₂

variable {moment : Moment} {moments : Nat → Moment} {k : Nat} {c c' : Connection} {a a' : Attempt}
  {m : Message} {ms : List Message}

theorem Turn.fetchWithin (h : Turn (moments k) c a m c' a') (n : Nat) :
    c.fetchWithin moments (n + 1) k a = c'.fetchWithin moments n (k + 1) a' := by
  obtain ⟨hmore, hrequests, hread, hobeyed⟩ := h
  rw [Connection.fetchWithin, if_neg (by simp [hmore]), hrequests]
  simp only [hread, hobeyed]

/-- Fetching goes through its turns. -/
theorem Turns.fetchWithin (h : Turns moments k c a ms c' a') (n : Nat) :
    c.fetchWithin moments (ms.length + n) k a = c'.fetchWithin moments n (k + ms.length) a' := by
  induction h generalizing n with
  | start => rw [List.length_nil, Nat.zero_add, Nat.add_zero]
  | @turn ms m c₁ c₂ a₁ a₂ hturns hturn ih =>
      rw [List.length_append, List.length_singleton, Nat.add_assoc, Nat.add_comm 1 n, ih,
        hturn.fetchWithin, Nat.add_assoc]

/-- A turn before other turns. -/
theorem Turns.head {c₁ : Connection} {a₁ : Attempt} (hturn : Turn (moments k) c a m c₁ a₁)
    (h : Turns moments (k + 1) c₁ a₁ ms c' a') : Turns moments k c a (m :: ms) c' a' := by
  induction h with
  | start => exact Turns.turn .start hturn
  | @turn ms m' c₂ c₃ a₂ a₃ hturns hturn' ih =>
      rw [Nat.add_assoc, Nat.add_comm 1] at hturn'
      exact ih.turn hturn'

/-- Fetching takes turns until the piece is there, or ends without it. -/
theorem exists_turns_of_fetchWithin (c : Connection) (moments : Nat → Moment) (n k : Nat)
    (a : Attempt) :
    ∃ ms c' a', Turns moments k c a ms c' a' ∧
      (a'.isDone = true ∧ c.fetchWithin moments n k a = (.ok a'.buffer, c') ∨
        ∀ data, (c.fetchWithin moments n k a).1 ≠ .ok data) := by
  induction n generalizing c k a with
  | zero =>
      refine ⟨[], c, a, .start, ?_⟩
      rw [Connection.fetchWithin]
      split
      next hdone => exact .inl ⟨hdone, rfl⟩
      next =>
        split
        next => exact .inr nofun
        next => exact .inr nofun
  | succ n ih =>
      rw [Connection.fetchWithin]
      split
      next hdone => exact ⟨[], c, a, .start, .inl ⟨hdone, rfl⟩⟩
      next hmore =>
        split
        next => exact ⟨[], c, a, .start, .inr nofun⟩
        next a₁ c₁ hrequests =>
          dsimp only
          split
          next => exact ⟨[], c, a, .start, .inr nofun⟩
          next => exact ⟨[], c, a, .start, .inr nofun⟩
          next m c₂ hread =>
            split
            next => exact ⟨[], c, a, .start, .inr nofun⟩
            next a₂ c₃ hobeyed =>
              obtain ⟨ms, c', a', hturns, hend⟩ := ih c₃ (k + 1) a₂
              have hturn := Turn.turn (eq_false_of_ne_true hmore) hrequests hread hobeyed
              exact ⟨m :: ms, c', a', hturns.head hturn, hend⟩

/-- What a turn does: the message that is next on the stream suits the piece, and it is obeyed by an
attempt that differs at most in what it asked for. -/
structure Turn.Effect (c : Connection) (a : Attempt) (m : Message) (c' : Connection)
    (a' : Attempt) : Prop where
  more : a.isDone = false
  limit_eq : c'.limit = c.limit
  readable : m.Readable c.limit
  incoming : c.stream.incoming = Frame.encode m ++ c'.stream.incoming
  suits : m.Suits a.spec
  attempt : ∃ a₁ : Attempt, a₁.spec = a.spec ∧ a₁.buffer = a.buffer ∧
    a₁.downloaded = a.downloaded ∧ a' = a₁.afterMessage m

theorem Turn.effect (h : Turn moment c a m c' a')
    (hroom : a.buffer.length = a.spec.length.toNat) : Turn.Effect c a m c' a' := by
  cases h with
  | @turn a₁ c₁ c₂ hmore hrequests hread hobeyed =>
      have hkeeps := requestBlocks_keeps (c := c) (a := { a with state := .requesting })
        (P := fun b => b.spec = a.spec ∧ b.buffer = a.buffer ∧ b.downloaded = a.downloaded)
        (fun _ _ hb => hb) ⟨rfl, rfl, rfl⟩ a.spec.length.toNat
      obtain ⟨hspec, hbuffer, hcount⟩ := hkeeps.of_ok hrequests
      have hlimit : c₁.limit = c.limit := by rw [← hkeeps.limit, hrequests]
      have hspared : c₁.stream.incoming = c.stream.incoming := by rw [← hkeeps.incoming, hrequests]
      obtain ⟨hreadable, hin⟩ := encode_of_read (congrArg Prod.fst hread)
      have hsame : c₂.limit = c₁.limit :=
        congrArg (fun done : Result Message × Connection => done.2.limit) hread.symm
      obtain ⟨⟨request, heffect⟩, hleft, hkept⟩ := attempt_of_handle hobeyed
      have hroom₁ : a₁.buffer.length = a₁.spec.length.toNat := by rw [hbuffer, hspec, hroom]
      obtain ⟨hsuits, rfl⟩ :=
        Attempt.suits_of_handle (a := { a₁ with state := .awaiting }) hroom₁ heffect
      rw [hread, hspared] at hin
      refine ⟨hmore, by rw [hkept, hsame, hlimit], hlimit ▸ hreadable, ?_, hspec ▸ hsuits,
        { a₁ with state := .awaiting }, hspec, hbuffer, hcount, rfl⟩
      rw [hleft]
      exact hin

end Connection

end Torrent
