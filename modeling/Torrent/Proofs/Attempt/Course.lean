import Mathlib.Logic.Relation
import Torrent.Proofs.Attempt.Requests
import Torrent.Proofs.Stream.Framing
import Torrent.Proofs.Stream.Writing

/-!
# The course of an attempt

A `Course` is an attempt with what was written and what was obeyed so far.
`Course.Step` lists what can happen to it next: a request goes out, a message of the
peer is obeyed, or the window of the session changes.  The peer may say anything at
any time and the window may be anything, so what holds along all courses holds
whatever the peer does.

Fetching a piece goes along a course: what goes out are the frames of its messages, and
perhaps the front of the one that comes next (`Connection.fetch_along`).
-/

namespace Torrent

/-- What a message asks for, if it is a request. -/
def Message.asks? (m : Message) : Option BlockRequest :=
  if m.kind = .request then m.blockRequest.toOption else none

theorem Message.asks?_request (r : BlockRequest) :
    (request r.index r.start r.length).asks? = some r := by
  rw [asks?, blockRequest_request]
  rfl

/-- An attempt with all that was written and obeyed in it. -/
structure Course where
  session : Session
  attempt : Attempt
  /-- The messages that went out, in order. -/
  written : List Message
  /-- The messages of the peer that were obeyed, in order. -/
  obeyed : List Message

namespace Course

/-- An attempt at a piece that is about to begin. -/
def start (s : Session) (spec : PieceSpec) (blockSize : UInt32) : Course :=
  ⟨s, .start spec blockSize, [], []⟩

/-- The requests that went out. -/
def asked (x : Course) : List BlockRequest := x.written.filterMap Message.asks?

/-- The blocks that were accepted. -/
def accepted (x : Course) : List Block := blocksOf x.obeyed

/-- What can happen next in an attempt. -/
inductive Step : Course → Course → Prop
  | asks {x : Course} {r : BlockRequest} (hr : x.attempt.nextRequest? x.session = some r) :
    Step x { x with
      attempt := x.attempt.afterRequest r
      written := x.written ++ [.request r.index r.start r.length] }
  /-- A message is obeyed.  If it is a request, a block may be written in reply. -/
  | obeys {x : Course} {m : Message} {now : Nat} {a : Attempt} {s : Session}
    {request : Option BlockRequest} (reply : Option Message)
    (hobeyed : x.attempt.handle x.session now m = .ok (a, s, request))
    (hreply : ∀ p ∈ reply, ∃ index start block, p = .piece index start block) :
    Step x ⟨s, a, x.written ++ reply.toList, x.obeyed ++ [m]⟩
  /-- Time passes, and the window with it. -/
  | passes (x : Course) (throughput : Throughput) (state : AttemptState) :
    Step x { x with
      session := { x.session with throughput := throughput }
      attempt := { x.attempt with state := state } }

/-- What an attempt can come to. -/
abbrev Reaches : Course → Course → Prop := Relation.ReflTransGen Step

/-- The buffer is as long as the piece. -/
def Fitted (x : Course) : Prop := x.attempt.buffer.length = x.attempt.spec.length.toNat

variable {x y : Course}

theorem fitted_start (s : Session) (spec : PieceSpec) (blockSize : UInt32) :
    (start s spec blockSize).Fitted :=
  Bytes.length_zeros _

/-- What a step does to the attempt, its requests and its blocks: the next request goes out, a
message is obeyed, or they stay. -/
inductive Effect (x y : Course) : Prop
  | asks (r : BlockRequest) (hr : x.attempt.nextRequest? x.session = some r)
    (hattempt : y.attempt = x.attempt.afterRequest r) (hasked : y.asked = x.asked ++ [r])
    (haccepted : y.accepted = x.accepted)
  | obeys (m : Message) (hsuits : m.Suits x.attempt.spec)
    (hattempt : y.attempt = x.attempt.afterMessage m) (hasked : y.asked = x.asked)
    (haccepted : y.accepted = x.accepted ++ m.brought?.toList)
  | passes (state : AttemptState) (hattempt : y.attempt = { x.attempt with state := state })
    (hasked : y.asked = x.asked) (haccepted : y.accepted = x.accepted)

theorem Step.effect (h : x.Step y) (hx : x.Fitted) : Effect x y := by
  cases h with
  | @asks r hr =>
      refine .asks r hr rfl ?_ rfl
      simp only [asked]
      rw [List.filterMap_append, List.filterMap_cons, Message.asks?_request]
      rfl
  | @obeys m now a s request reply hobeyed hreply =>
      obtain ⟨hsuits, hattempt⟩ := Attempt.suits_of_handle hx hobeyed
      refine .obeys m hsuits hattempt ?_ ?_
      · -- a reply is no request
        simp only [asked]
        rw [List.filterMap_append]
        cases reply with
        | none => exact List.append_nil _
        | some p =>
            obtain ⟨index, start, block, rfl⟩ := hreply p rfl
            exact List.append_nil _
      · simp only [accepted]
        rw [blocksOf_append, blocksOf_singleton]
  | passes throughput state => exact .passes state rfl rfl rfl

/-- A message that suits the piece changes neither the piece nor what was asked for. -/
theorem fitted_afterMessage {a : Attempt} {m : Message}
    (hroom : a.buffer.length = a.spec.length.toNat) (hsuits : m.Suits a.spec) :
    (a.afterMessage m).spec = a.spec ∧ (a.afterMessage m).blockSize = a.blockSize ∧
      (a.afterMessage m).requested = a.requested ∧
      (a.afterMessage m).buffer.length = a.spec.length.toNat := by
  rw [Attempt.afterMessage]
  cases hbrought : m.brought? with
  | none => exact ⟨rfl, rfl, rfl, hroom⟩
  | some b =>
      have hfits : b.start + b.bytes.length ≤ a.buffer.length := hroom ▸ hsuits.within b hbrought
      exact ⟨rfl, rfl, rfl, (Bytes.length_overlay hfits).trans hroom⟩

theorem Step.fitted (h : x.Step y) (hx : x.Fitted) : y.Fitted := by
  cases h.effect hx with
  | asks r hr hattempt => rw [Fitted, hattempt]; exact hx
  | obeys m hsuits hattempt =>
      obtain ⟨hspec, -, -, hroom⟩ := fitted_afterMessage hx hsuits
      rw [Fitted, hattempt, hspec]
      exact hroom
  | passes state hattempt => rw [Fitted, hattempt]; exact hx

/-! ## Over a connection -/

/-- A connection over which a course was taken: behind what had gone out before it are the frames
of its messages. -/
structure Over (x : Course) (before : Bytes) (c : Connection) : Prop where
  session : c.session = x.session
  sent : c.stream.sent = before ++ x.written.flatMap Frame.encode

/-- What goes out in a course: the frames of its messages, and perhaps the front of the one that
comes next. -/
def Sends (x : Course) (out : Bytes) : Prop :=
  out = x.written.flatMap Frame.encode ∨
    ∃ y m n, x.Step y ∧ y.written = x.written ++ [m] ∧
      out = x.written.flatMap Frame.encode ++ (Frame.encode m).take n

/-- What went out over a connection by the end belongs to the course. -/
def Ends (x : Course) (before : Bytes) (c : Connection) : Prop :=
  ∃ y out, x.Reaches y ∧ y.Sends out ∧ c.stream.sent = before ++ out

/-- Something was done over a connection on the course: it went on, or was broken off. -/
structure Leads (x : Course) (before : Bytes) (done : Except PeerError Attempt × Connection) :
    Prop where
  ok : ∀ a, done.1 = .ok a → ∃ y, x.Reaches y ∧ y.attempt = a ∧ y.Over before done.2
  error : ∀ e, done.1 = .error e → x.Ends before done.2

variable {before : Bytes} {c : Connection} {done : Except PeerError Attempt × Connection}

theorem Over.ends (h : x.Over before c) : x.Ends before c := ⟨x, _, .refl, .inl rfl, h.sent⟩

theorem Ends.of_reaches (h : y.Ends before c) (hy : x.Reaches y) : x.Ends before c := by
  obtain ⟨z, out, hz, hout⟩ := h
  exact ⟨z, out, hy.trans hz, hout⟩

theorem Leads.of_step (hy : y.Leads before done) (h : x.Step y) : x.Leads before done where
  ok := fun a ha => (hy.ok a ha).imp fun _ hz => ⟨hz.1.head h, hz.2⟩
  error := fun e he => (hy.error e he).of_reaches (.single h)

/-- A message that is next in the course is written, or the front of its frame is. -/
theorem Step.send {m : Message} (h : x.Step y) (hwritten : y.written = x.written ++ [m])
    (hsession : c.session = y.session)
    (hsent : c.stream.sent = before ++ x.written.flatMap Frame.encode) :
    ((c.send m).1 = .ok () → y.Over before (c.send m).2) ∧
      x.Ends before (c.send m).2 := by
  obtain ⟨hsame, hwhole, n, hfront⟩ := c.sent_send m
  refine ⟨fun hok => ⟨hsame.trans hsession, ?_⟩, x, _, .refl, .inr ⟨y, m, n, h, hwritten, rfl⟩, ?_⟩
  · rw [hwhole hok, hwritten, List.flatMap_append, List.flatMap_singleton, hsent,
      List.append_assoc]
  · rw [hfront, hsent, List.append_assoc]

/-- Requests that go out go along the course. -/
theorem Over.requestBlocks (h : x.Over before c) (n : Nat) :
    x.Leads before (c.requestBlocks x.attempt n) := by
  induction n generalizing x c with
  | zero =>
      refine ⟨fun a ha => ?_, fun e he => (by cases he)⟩
      cases ha
      exact ⟨x, .refl, rfl, h⟩
  | succ n ih =>
      rw [Connection.requestBlocks]
      split
      next =>
        refine ⟨fun a ha => ?_, fun e he => (by cases he)⟩
        cases ha
        exact ⟨x, .refl, rfl, h⟩
      next r hr =>
        have hstep := Step.asks (h.session ▸ hr)
        obtain ⟨hok, hends⟩ := hstep.send rfl h.session h.sent
        split
        next e c' hfailed =>
          rw [hfailed] at hends
          exact ⟨fun a ha => (by cases ha), fun e he => hends⟩
        next c' hdone =>
          rw [hdone] at hok
          exact (ih (hok rfl)).of_step hstep

/-- A message that is obeyed is a step of the course. -/
theorem Over.handle (h : x.Over before c) (serve : Serve) (stopwatch : Nat) (m : Message) :
    x.Leads before (c.handle x.attempt serve stopwatch m) := by
  rw [Connection.handle, h.session]
  split
  next cause _ => exact ⟨fun a ha => (by cases ha), fun e he => h.ends⟩
  next a s request hobeyed =>
    dsimp only
    split
    next =>
      have hstep := Step.obeys none hobeyed (by simp)
      refine ⟨fun a' ha' => ?_, fun e he => (by cases he)⟩
      cases ha'
      exact ⟨_, .single hstep, rfl, rfl, by simpa using h.sent⟩
    next reply hreply =>
      have hpiece : ∀ p ∈ some reply, ∃ index start block, p = .piece index start block := by
        rintro p ⟨⟩
        obtain ⟨r, -, hblock⟩ := Option.bind_eq_some_iff.1 hreply
        obtain ⟨block, -, rfl⟩ := Option.map_eq_some_iff.1 hblock
        exact ⟨_, _, _, rfl⟩
      have hstep := Step.obeys (some reply) hobeyed hpiece
      obtain ⟨hok, hends⟩ := hstep.send (c := { c with session := s }) rfl rfl h.sent
      split
      next e c' hfailed =>
        rw [hfailed] at hends
        exact ⟨fun a' ha' => (by cases ha'), fun e he => hends⟩
      next c' hdone =>
        rw [hdone] at hok
        refine ⟨fun a' ha' => ?_, fun e he => (by cases he)⟩
        cases ha'
        exact ⟨_, .single hstep, rfl, hok rfl⟩

/-- The state of the attempt is no matter. -/
theorem step_withState (x : Course) (state : AttemptState) :
    x.Step { x with attempt := { x.attempt with state := state } } :=
  .passes x x.session.throughput state

theorem Over.withState (h : x.Over before c) (state : AttemptState) :
    Over { x with attempt := { x.attempt with state := state } } before c :=
  ⟨h.session, h.sent⟩

/-- Reading writes nothing. -/
theorem Over.read (h : x.Over before c) (deadline : Option Nat) :
    x.Over before (c.read deadline).2 :=
  ⟨h.session, h.sent⟩

/-- The requests of one turn. -/
theorem Over.requests (h : x.Over before c) (n : Nat) :
    x.Leads before (c.requestBlocks { x.attempt with state := .requesting } n) :=
  ((h.withState .requesting).requestBlocks n).of_step (x.step_withState .requesting)

/-- The message of one turn. -/
theorem Over.obeys (h : x.Over before c) (moment : Moment) (m : Message) :
    x.Leads before
      (c.handle { x.attempt with state := .awaiting } moment.serve moment.stopwatch m) :=
  ((h.withState .awaiting).handle _ _ m).of_step (x.step_withState .awaiting)

/-- Fetching a piece goes along the course. -/
theorem Over.fetchWithin (h : x.Over before c) (moments : Nat → Moment) (n k : Nat) :
    x.Ends before (c.fetchWithin moments n k x.attempt).2 := by
  induction n generalizing x c k with
  | zero =>
      rw [Connection.fetchWithin]
      split
      next => exact h.ends
      next =>
        have hrequests := h.requests x.attempt.spec.length.toNat
        split
        next e c₁ hfailed =>
          rw [hfailed] at hrequests
          exact hrequests.error e rfl
        next a₁ c₁ hrequested =>
          rw [hrequested] at hrequests
          obtain ⟨y, hy, -, hover⟩ := hrequests.ok a₁ rfl
          exact hover.ends.of_reaches hy
  | succ n ih =>
      rw [Connection.fetchWithin]
      split
      next => exact h.ends
      next =>
        have hrequests := h.requests x.attempt.spec.length.toNat
        split
        next e c₁ hfailed =>
          rw [hfailed] at hrequests
          exact hrequests.error e rfl
        next a₁ c₁ hrequested =>
          rw [hrequested] at hrequests
          obtain ⟨y, hy, rfl, hover⟩ := hrequests.ok a₁ rfl
          have hread := hover.read none
          dsimp only
          split
          next e c₂ hfailed =>
            rw [hfailed] at hread
            exact hread.ends.of_reaches hy
          next c₂ hpending =>
            rw [hpending] at hread
            exact hread.ends.of_reaches hy
          next m c₂ hgot =>
            rw [hgot] at hread
            have hobeys := hread.obeys (moments k) m
            split
            next e c₃ hfailed =>
              rw [hfailed] at hobeys
              exact (hobeys.error e rfl).of_reaches hy
            next a₂ c₃ hobeyed =>
              rw [hobeyed] at hobeys
              obtain ⟨z, hz, rfl, hnext⟩ := hobeys.ok a₂ rfl
              exact ((ih hnext (k + 1)).of_reaches hz).of_reaches hy

end Course

/-- Fetching a piece goes along a course: what goes out are the frames of its messages, and perhaps
the front of the one that comes next. -/
theorem Connection.fetch_along (c : Connection) (moments : Nat → Moment) (spec : PieceSpec)
    (blockSize : UInt32) :
    (Course.start c.session spec blockSize).Ends c.stream.sent
      (c.fetch moments (.start spec blockSize)).2 := by
  have hover : (Course.start c.session spec blockSize).Over c.stream.sent c :=
    ⟨rfl, (List.append_nil _).symm⟩
  exact hover.fetchWithin moments _ 0

end Torrent
