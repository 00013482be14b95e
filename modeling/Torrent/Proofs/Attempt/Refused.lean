import Torrent.Proofs.Attempt.Copying
import Torrent.Proofs.Stream.Writing

/-!
# Messages that are refused

An attempt and its connection are changed in place while a message is obeyed, one
field after the other, and a failure in the middle would leave what was changed
before it.  `Running.obey` is that program.  It comes to what `Connection.handle`
gives, and leaves the attempt that was there where the message is refused
(`Running.obey_eq`).

So a message that breaks the protocol changes nothing, and what every other message
may change is told by its kind (`Running.refused_changes_nothing`).
-/

namespace Torrent

/-- An attempt that is under way over a connection. -/
structure Running where
  attempt : Attempt
  connection : Connection

namespace Running

/-! ## Obeying in place -/

/-- What a message says, unless it is refused. -/
def parsed {α : Type} : Except Violation α → EStateM PeerError Running α
  | .ok a => pure a
  | .error cause => throw (.violation cause)

/-- The buffer changed in place by something that may be refused. -/
def onBuffer {α : Type} (change : EStateM Violation Bytes α) : EStateM PeerError Running α :=
  fun x =>
    match change x.attempt.buffer with
    | .ok a buffer => .ok a { x with attempt := { x.attempt with buffer := buffer } }
    | .error cause buffer =>
      .error (.violation cause) { x with attempt := { x.attempt with buffer := buffer } }

def onAttempt (change : Attempt → Attempt) : EStateM PeerError Running Unit :=
  modify fun x => { x with attempt := change x.attempt }

def onSession (change : Session → Session) : EStateM PeerError Running Unit :=
  modify fun x =>
    { x with connection := { x.connection with session := change x.connection.session } }

def send (m : Message) : EStateM PeerError Running Unit := fun x =>
  match x.connection.send m with
  | (.ok (), c) => .ok () { x with connection := c }
  | (.error e, c) => .error e { x with connection := c }

/-- A message obeyed, one effect after the other. -/
def obey (serve : Serve) (stopwatch : Nat) (m : Message) : EStateM PeerError Running Unit :=
  match m.kind with
  | .choke => onSession fun s => { s with choked := true }
  | .unchoke => onSession fun s => { s with choked := false }
  | .have_ => do
    let index ← parsed m.haveIndex
    onSession (·.markHave index)
  | .bitfield => onSession fun s => { s with pieces := ⟨m.payload⟩ }
  | .piece => do
    let x ← get
    let count ← onBuffer (m.copyInto x.attempt.spec.index)
    onAttempt fun a => { a with backlog := Attempt.oneAnswered a.backlog }
    onAttempt fun a => { a with downloaded := a.downloaded + UInt32.ofNat count }
    onSession (·.recordBlock count stopwatch)
  | .request => do
    let r ← parsed m.blockRequest
    if Attempt.longestServed < r.length then return ()
    else
      match serve r with
      | none => return ()
      | some block => send (.piece r.index r.start block)
  | .keepAlive | .interested | .notInterested | .cancel | .other _ => return ()

/-- A message that is obeyed in place leaves what it comes to, and the attempt that was there where it
fails. -/
theorem obey_eq (x : Running) (serve : Serve) (stopwatch : Nat) (m : Message) :
    obey serve stopwatch m x =
      match x.connection.handle x.attempt serve stopwatch m with
      | (.ok a, c) => .ok () ⟨a, c⟩
      | (.error e, c) => .error e ⟨x.attempt, c⟩ := by
  obtain ⟨attempt, session, stream, limit⟩ := x
  simp only [Connection.handle, Attempt.handle, obey]
  cases m.kind with
  | choke | unchoke | bitfield | keepAlive | interested | notInterested | cancel | other id => rfl
  | have_ => cases m.haveIndex <;> rfl
  | piece =>
      simp only [get_bind]
      simp only [bind, EStateM.bind, onBuffer, Message.copyInto_eq]
      cases m.copyBlock attempt.spec.index attempt.buffer <;> rfl
  | request =>
      cases m.blockRequest with
      | error cause => rfl
      | ok r =>
          simp only [parsed, bind, EStateM.bind, pure, EStateM.pure]
          by_cases hlong : Attempt.longestServed < r.length
          · rw [if_pos hlong, if_pos hlong]
            rfl
          rw [if_neg hlong, if_neg hlong, Option.bind_some]
          cases serve r with
          | none => rfl
          | some block =>
              simp only [Option.map_some, send]
              rcases Connection.send ⟨session, stream, limit⟩ (.piece r.index r.start block) with
                ⟨_ | _, c⟩ <;> rfl

/-! ## What a message changes -/

/-- A message that an attempt refuses. -/
def Refuses (a : Attempt) (m : Message) : Prop :=
  m.kind = .have_ ∧ m.payload.length ≠ 4 ∨
  m.kind = .request ∧ m.payload.length ≠ 12 ∨
  m.kind = .piece ∧ ¬(8 ≤ m.payload.length ∧ BigEndian.ofBytes m.payload = a.spec.index ∧
    (BigEndian.ofBytes (m.payload.drop 4)).toNat + (m.payload.length - 8) ≤ a.buffer.length)

/-- Something is running as before but for what a message of a kind may change. -/
structure Touched (kind : MessageKind) (x y : Running) : Prop where
  choked : kind ≠ .choke → kind ≠ .unchoke →
    y.connection.session.choked = x.connection.session.choked
  pieces : kind ≠ .have_ → kind ≠ .bitfield →
    y.connection.session.pieces = x.connection.session.pieces
  throughput : kind ≠ .piece → y.connection.session.throughput = x.connection.session.throughput
  attempt : kind ≠ .piece → y.attempt = x.attempt
  stream : kind ≠ .request → y.connection.stream = x.connection.stream
  /-- What no message changes. -/
  always : y.attempt.spec = x.attempt.spec ∧ y.attempt.blockSize = x.attempt.blockSize ∧
    y.attempt.requested = x.attempt.requested ∧ y.attempt.state = x.attempt.state ∧
    y.connection.session.endpoint = x.connection.session.endpoint ∧
    y.connection.session.remoteId = x.connection.session.remoteId ∧
    y.connection.session.interestSent = x.connection.session.interestSent ∧
    y.connection.limit = x.connection.limit

variable {x y : Running} {serve : Serve} {stopwatch : Nat} {m : Message} {kind : MessageKind}

theorem Touched.refl (kind : MessageKind) (x : Running) : Touched kind x x where
  choked := fun _ _ => rfl
  pieces := fun _ _ => rfl
  throughput := fun _ => rfl
  attempt := fun _ => rfl
  stream := fun _ => rfl
  always := ⟨rfl, rfl, rfl, rfl, rfl, rfl, rfl, rfl⟩

/-- Sending touches the stream and nothing else, and fails only where the stream takes no more. -/
theorem send_cases (x : Running) (m : Message) :
    ∃ y, Touched .request x y ∧
      (send m x = .ok () y ∨ send m x = .error (.io y.connection.stream.refusal) y) := by
  refine ⟨{ x with connection := (x.connection.send m).2 }, ?_, ?_⟩
  · obtain ⟨hsend, -⟩ := x.connection.send_eq m
    rw [hsend]
    constructor <;> simp
  · simp only [send, Connection.send]
    rcases x.connection.stream.write (Frame.encode m) with ⟨_ | _, s⟩
    · exact .inr rfl
    · exact .inl rfl

/-- What can come of a message: it is refused and nothing changes, it is obeyed, or the reply to a
request cannot be written. -/
inductive Leaves (x : Running) (m : Message) : EStateM.Result PeerError Running Unit → Prop
  | refused {cause : Violation} (hrefuses : Refuses x.attempt m) :
    Leaves x m (.error (.violation cause) x)
  | obeyed {y : Running} (htakes : ¬Refuses x.attempt m) (htouched : Touched m.kind x y) :
    Leaves x m (.ok () y)
  | failed {y : Running} (htakes : ¬Refuses x.attempt m) (htouched : Touched m.kind x y) :
    Leaves x m (.error (.io y.connection.stream.refusal) y)

/-- A message of a kind that may be refused is refused if it cannot be read. -/
theorem refuses_iff (hkind : m.kind = kind) (a : Attempt) :
    Refuses a m ↔
      kind = .have_ ∧ (¬∃ index, m.haveIndex = .ok index) ∨
      kind = .request ∧ (¬∃ r, m.blockRequest = .ok r) ∨
      kind = .piece ∧ ¬∃ count buffer, m.copyInto a.spec.index a.buffer = .ok count buffer := by
  subst hkind
  rw [Message.exists_haveIndex_iff, Message.exists_blockRequest_iff, Message.exists_copyInto_iff]
  constructor
  · rintro (⟨hkind, hsize⟩ | ⟨hkind, hsize⟩ | ⟨hkind, hnot⟩)
    · exact .inl ⟨hkind, fun h => hsize h.2⟩
    · exact .inr (.inl ⟨hkind, fun h => hsize h.2⟩)
    · exact .inr (.inr ⟨hkind, fun h => hnot h.2⟩)
  · rintro (⟨hkind, hnot⟩ | ⟨hkind, hnot⟩ | ⟨hkind, hnot⟩)
    · exact .inl ⟨hkind, fun hsize => hnot ⟨hkind, hsize⟩⟩
    · exact .inr (.inl ⟨hkind, fun hsize => hnot ⟨.inl hkind, hsize⟩⟩)
    · exact .inr (.inr ⟨hkind, fun h => hnot ⟨hkind, h⟩⟩)

theorem leaves_obey (x : Running) (serve : Serve) (stopwatch : Nat) (m : Message) :
    Leaves x m (obey serve stopwatch m x) := by
  cases hkind : m.kind with
  | keepAlive | interested | notInterested | cancel | other id =>
      have htakes := mt (refuses_iff hkind x.attempt).1 (by simp)
      simp only [obey, hkind]
      exact .obeyed htakes (.refl _ x)
  | choke | unchoke | bitfield =>
      have htakes := mt (refuses_iff hkind x.attempt).1 (by simp)
      simp only [obey, hkind]
      refine .obeyed htakes ?_
      rw [hkind]
      constructor <;> simp
  | have_ =>
      simp only [obey, hkind]
      cases hindex : m.haveIndex with
      | error cause =>
          exact .refused ((refuses_iff hkind _).2 (.inl ⟨rfl, by simp [hindex]⟩))
      | ok index =>
          refine .obeyed (mt (refuses_iff hkind _).1 (by simp [hindex])) ?_
          rw [hkind]
          constructor <;> simp [Session.markHave]
  | piece =>
      simp only [obey, hkind]
      rw [get_bind]
      simp only [bind, EStateM.bind, onBuffer]
      cases hcopy : m.copyInto x.attempt.spec.index x.attempt.buffer with
      | error cause buffer =>
          rw [Message.eq_of_copyInto_eq_error hcopy]
          exact .refused ((refuses_iff hkind _).2 (.inr (.inr ⟨rfl, by simp [hcopy]⟩)))
      | ok count buffer =>
          refine .obeyed (mt (refuses_iff hkind _).1 (by simp [hcopy])) ?_
          rw [hkind]
          constructor <;> simp [Session.recordBlock]
  | request =>
      simp only [obey, hkind]
      cases hrequest : m.blockRequest with
      | error cause =>
          exact .refused ((refuses_iff hkind _).2 (.inr (.inl ⟨rfl, by simp [hrequest]⟩)))
      | ok r =>
          have htakes := mt (refuses_iff hkind x.attempt).1 (by simp [hrequest])
          simp only [parsed, bind, EStateM.bind, pure, EStateM.pure]
          split
          next => exact .obeyed htakes (.refl _ x)
          next =>
            cases serve r with
            | none => exact .obeyed htakes (.refl _ x)
            | some block =>
                obtain ⟨y, htouched, hsent | hfailed⟩ := send_cases x (.piece r.index r.start block)
                · simp only [hsent]
                  exact .obeyed htakes (hkind ▸ htouched)
                · simp only [hfailed]
                  exact .failed htakes (hkind ▸ htouched)

section

variable {result : EStateM.Result PeerError Running Unit}

theorem Leaves.touched (h : Leaves x m result) : Touched m.kind x (stateOf result) := by
  cases h with
  | refused => exact .refl _ x
  | obeyed _ htouched => exact htouched
  | failed _ htouched => exact htouched

theorem Leaves.eq_of_violation {cause : Violation} (h : Leaves x m (.error (.violation cause) y)) :
    y = x ∧ Refuses x.attempt m := by
  cases h with
  | refused hrefuses => exact ⟨rfl, hrefuses⟩

theorem Leaves.of_refuses (h : Leaves x m result) (hrefuses : Refuses x.attempt m) :
    ∃ cause, result = .error (.violation cause) x := by
  cases h with
  | refused => exact ⟨_, rfl⟩
  | obeyed htakes => exact absurd hrefuses htakes
  | failed htakes => exact absurd hrefuses htakes

end

/-- A message that is refused leaves the attempt, the session and the stream as they were, and so does
one of a kind that has no use here.  Exactly the announcements and requests of the wrong size are
refused, and the blocks that are cut, of another piece or too long.  Only choking and its end change
whether the session is choked, only announcements and bitmaps which pieces the peer has, and only a
block the buffer, the counts and the throughput; only a request has something written.  In place this
is what comes of handling a message. -/
theorem refused_changes_nothing (x : Running) (serve : Serve) (stopwatch : Nat) (m : Message) :
    (∀ cause y, obey serve stopwatch m x = .error (.violation cause) y → y = x) ∧
    ((m.kind = .keepAlive ∨ m.kind = .interested ∨ m.kind = .notInterested ∨ m.kind = .cancel ∨
      ∃ id, m.kind = .other id) → obey serve stopwatch m x = .ok () x) ∧
    ((∃ cause y, obey serve stopwatch m x = .error (.violation cause) y) ↔
      Refuses x.attempt m) ∧
    Touched m.kind x (stateOf (obey serve stopwatch m x)) ∧
    obey serve stopwatch m x =
      match x.connection.handle x.attempt serve stopwatch m with
      | (.ok a, c) => .ok () ⟨a, c⟩
      | (.error e, c) => .error e ⟨x.attempt, c⟩ := by
  have hleaves := leaves_obey x serve stopwatch m
  refine ⟨fun cause y hrefused => ?_, ?_, ⟨?_, fun hrefuses => ?_⟩, hleaves.touched,
    obey_eq x serve stopwatch m⟩
  · rw [hrefused] at hleaves
    exact hleaves.eq_of_violation.1
  · rintro (hkind | hkind | hkind | hkind | ⟨id, hkind⟩)
    all_goals
      simp only [obey, hkind]
      rfl
  · rintro ⟨cause, y, hrefused⟩
    rw [hrefused] at hleaves
    exact hleaves.eq_of_violation.2
  · obtain ⟨cause, hresult⟩ := hleaves.of_refuses hrefuses
    exact ⟨cause, x, hresult⟩

/-- A block that goes past the end of its piece is refused, and nothing has changed. -/
theorem refused_changes_nothing_overrun :
    let spec : PieceSpec := ⟨3, .zero 20, 5⟩
    let x : Running := ⟨.start spec 2, .opened ⟨.short ⟨127, 0, 0, 1⟩, 6881⟩ ⟨.zero 20⟩ ⟨[]⟩ 0,
      .start [] .silent none none, 64⟩
    ∃ y, obey (fun _ => none) 7 (.piece 3 4 [1, 2]) x = .error (.violation (.overrun 4 2 5)) y ∧
      y = x := by
  intro spec x
  obtain ⟨hrefused, -⟩ := refused_changes_nothing x (fun _ => none) 7 (.piece 3 4 [1, 2])
  refine ⟨_, rfl, hrefused _ _ rfl⟩

end Running

end Torrent
