import Torrent.Swarm.Step

/-!
# What one step can do

The steps of a download are functions with many cases.  Here each of them is read
once: `Move` lists what a step can make of the phase of one task and of what the
tasks share, and `Swarm.Change` lists what an event can make of a whole download.
`Swarm.change_step` says that nothing else happens.  Every invariant is proved
along these lists and unfolds no step again.

A move keeps what belongs to the connection alone (the bytes of a greeting, the
blocks of an attempt) out of sight, except that an attempt whose content has the
right digest is what gets stored.
-/

namespace Torrent

/-! ## Phases and the pieces they hold -/

/-- The piece that a task in this phase holds. -/
def Phase.claim? : Phase → Option PieceSpec
  | .inSession _ work => work.claim?
  | _ => none

/-- Whether the task has not opened its session yet. -/
def Phase.isOpening : Phase → Bool
  | .dialing _ | .greeting _ _ | .opening _ _ _ _ => true
  | .inSession _ _ | .gone _ _ => false

/-- The piece that work is about as long as it is not to be stored. -/
def Work.pursued? : Work → Option PieceSpec
  | .announcing spec _ => some spec
  | .fetching attempt _ _ => some attempt.spec
  | .serving attempt _ _ _ => some attempt.spec
  | .looking | .resting _ | .storing _ _ | .telling _ | .leaving _ => none

/-- Whether writing is over. -/
def Writing.isFinished : Writing → Bool
  | .finished _ => true
  | _ => false

theorem Task.claim?_eq (t : Task) : t.claim? = t.phase.claim? := by
  cases hp : t.phase <;> simp only [Task.claim?, Phase.claim?, hp]

theorem Work.claim?_of_pursued? {work : Work} {spec : PieceSpec} (h : work.pursued? = some spec) :
    work.claim? = some spec := by
  cases work <;> first | exact h | cases h

theorem Phase.claim?_of_isOpening {p : Phase} (h : p.isOpening = true) : p.claim? = none := by
  cases p <;> first | rfl | cases h

/-! ## Moves of one task -/

/-- What a step that is not a stop can make of a task in a phase and of what is shared.  `fault` is
the failure put upon the step. -/
inductive Move (r : PeerRecord) (fault : Option Fault) (w : Shared) : Phase → Shared → Phase → Prop
  | stay (p : Phase) : Move r fault w p w p
  | reach {p p' : Phase} (hp : p.isOpening = true) (hp' : p'.isOpening = true) :
    Move r fault w p w p'
  | opened {p : Phase} (s : Session) (hp : p.isOpening = true) :
    Move r fault w p w (.inSession s .looking)
  | lost {p : Phase} (hp : p.isOpening = true) :
    Move r fault w p { w with peers := (w.peers.remove r.endpoint).2 } (.gone .finished false)
  | claimed {s : Session} {spec : PieceSpec} {queue : WorkQueue} (left : List Message)
    (h : w.queue.claim (fun spec => s.hasPiece spec.index) = (.piece spec, queue)) :
    Move r fault w (.inSession s .looking) { w with queue := queue }
      (.inSession s (.announcing spec left))
  | rested (s : Session) (wake : Nat) :
    Move r fault w (.inSession s .looking) w (.inSession s (.resting wake))
  | idled {s : Session} {queue : WorkQueue}
    (h : w.queue.claim (fun spec => s.hasPiece spec.index) = (.noMatch, queue)) :
    Move r fault w (.inSession s .looking) w (.inSession s (.leaving .nothingToOffer))
  | drained {s : Session} {queue : WorkQueue}
    (h : w.queue.claim (fun spec => s.hasPiece spec.index) = (.drained, queue)) :
    Move r fault w (.inSession s .looking) w (.inSession s (.leaving .drained))
  | woke (s : Session) (wake : Nat) :
    Move r fault w (.inSession s (.resting wake)) w (.inSession s .looking)
  | pursued {s s' : Session} {work work' : Work} {spec : PieceSpec}
    (h : work.pursued? = some spec) (h' : work'.pursued? = some spec) :
    Move r fault w (.inSession s work) w (.inSession s' work')
  | read {s : Session} {a : Attempt} {q : BlockRequest} {reading reading' : Reading}
    {deadline : Nat} {store : Store} {tree : FileTree}
    (h : reading.step w.store w.tree = (reading', store, tree)) :
    Move r fault w (.inSession s (.serving a q reading deadline))
      { w with store := store, tree := tree } (.inSession s (.serving a q reading' deadline))
  /-- The content is there and has the right digest. -/
  | fetched {s : Session} {a : Attempt} {held : Bytes} {deadline : Nat}
    (h : a.spec.verify a.buffer = true) :
    Move r fault w (.inSession s (.fetching a held deadline)) w
      (.inSession s (.storing a.spec (w.store.write a.spec.index a.buffer)))
  | wrote {s : Session} {spec : PieceSpec} {writing writing' : Writing} {store : Store}
    {tree : FileTree} (hleft : writing.isFinished = false)
    (h : writing.step fault w.store w.tree = (writing', store, tree)) :
    Move r fault w (.inSession s (.storing spec writing)) { w with store := store, tree := tree }
      (.inSession s (.storing spec writing'))
  | completed (s : Session) (spec : PieceSpec) :
    Move r fault w (.inSession s (.storing spec (.finished (.ok ()))))
      { w with queue := w.queue.complete spec, completed := w.completed + 1 }
      (.inSession s (.telling spec.index))
  | refused (s : Session) (spec : PieceSpec) (e : StorageError) :
    Move r fault w (.inSession s (.storing spec (.finished (.error e))))
      { w with queue := w.queue.giveBack spec } (.inSession s (.leaving (.storageFailed e)))
  | failed {s s' : Session} {work : Work} {spec : PieceSpec} (e : PeerError)
    (h : work.pursued? = some spec) :
    Move r fault w (.inSession s work) { w with queue := w.queue.giveBack spec }
      (.inSession s' (.leaving (.failed e)))
  | untold (s : Session) (index : PieceIndex) (e : PeerError) :
    Move r fault w (.inSession s (.telling index)) w (.inSession s (.leaving (.failed e)))
  | told (s : Session) (index : PieceIndex) :
    Move r fault w (.inSession s (.telling index)) w (.inSession s .looking)
  | departed (s : Session) :
    Move r fault w (.inSession s (.leaving .drained)) w (.gone .finished false)
  | dropped {s : Session} {d : Departure} (h : d = .nothingToOffer ∨ ∃ e, d = .failed e) :
    Move r fault w (.inSession s (.leaving d)) { w with peers := (w.peers.remove r.endpoint).2 }
      (.gone .finished false)
  | gaveUp (s : Session) (e : StorageError) :
    Move r fault w (.inSession s (.leaving (.storageFailed e))) w (.gone (.storageFailed e) false)

/-- A step of a task comes to a move, and the task stays with its peer. -/
def Shared.MovesTo (w : Shared) (t : Task) (fault : Option Fault) (m : Moved) : Prop :=
  m.2.record = t.record ∧ Move t.record fault w t.phase m.1 m.2.phase

/-- Sending leaves a task where it is. -/
theorem Task.kept_of_send {t t' : Task} {bytes : Bytes} {fault : Option Fault}
    {sent : Except PeerError Unit} (h : t.send bytes fault = (sent, t')) :
    t'.phase = t.phase ∧ t'.record = t.record := by
  cases fault <;> cases h <;> exact ⟨rfl, rfl⟩

/-- Receiving leaves a task where it is. -/
theorem Task.kept_of_receive {α : Type} {t t' : Task} {r : Receiver (Except PeerError α)}
    {held : Bytes} {heard : Except PeerError (Bytes ⊕ α)}
    (h : t.receive r held = (heard, t')) : t'.phase = t.phase ∧ t'.record = t.record := by
  simp only [receive] at h
  split at h
  next =>
    cases h
    exact ⟨rfl, rfl⟩
  next =>
    cases h
    exact ⟨rfl, rfl⟩
  next =>
    split at h <;> cases h <;> exact ⟨rfl, rfl⟩

/-- No message changes which piece an attempt is about. -/
theorem Attempt.spec_handle {a a' : Attempt} {s s' : Session} {now : Nat} {m : Message}
    {q : Option BlockRequest} (h : a.handle s now m = .ok (a', s', q)) : a'.spec = a.spec := by
  simp only [Attempt.handle] at h
  split at h <;> first
    | cases h; rfl
    | (split at h <;> first | (cases h; done) | (cases h; rfl))

namespace Shared

variable {w : Shared} {t : Task} {s : Session} {fault : Option Fault} {now : Nat}

theorem movesTo_self : w.MovesTo t fault (w, t) := ⟨rfl, .stay _⟩

/-- A task that sent or received goes on as one that did not. -/
theorem MovesTo.of_eq {t' : Task} {m : Moved} (h : w.MovesTo t' fault m)
    (hphase : t'.phase = t.phase) (hrecord : t'.record = t.record) : w.MovesTo t fault m :=
  ⟨h.1.trans hrecord, hphase ▸ hrecord ▸ h.2⟩

theorem lose_movesTo (hp : t.phase.isOpening = true) : w.MovesTo t fault (w.lose t) :=
  ⟨rfl, .lost hp⟩

/-- The piece that is pursued goes back. -/
theorem leave_movesTo {s' : Session} {work : Work} {spec : PieceSpec} {e : PeerError}
    (hp : t.phase = .inSession s work) (hspec : work.pursued? = some spec) :
    w.MovesTo t fault (w.leave t s' (.failed e)) := by
  have hclaim : t.claim? = some spec := by
    rw [Task.claim?_eq, hp]
    exact Work.claim?_of_pursued? hspec
  refine ⟨rfl, ?_⟩
  simp only [leave, hclaim, giveBack, hp]
  exact .failed e hspec

theorem go_movesTo {s' : Session} {work work' : Work} {spec : PieceSpec}
    (hp : t.phase = .inSession s work) (hspec : work.pursued? = some spec)
    (hspec' : work'.pursued? = some spec) : w.MovesTo t fault (w.go t s' work') := by
  refine ⟨rfl, ?_⟩
  simp only [go, hp]
  exact .pursued hspec hspec'

theorem greet_movesTo (hp : t.phase.isOpening = true) :
    w.MovesTo t fault (w.greet t now fault) := by
  unfold greet
  dsimp only
  split
  next t' hsend =>
    obtain ⟨hphase, hrecord⟩ := Task.kept_of_send hsend
    exact (lose_movesTo (hphase ▸ hp)).of_eq hphase hrecord
  next t' hsend =>
    have hrecord := (Task.kept_of_send hsend).2
    exact ⟨hrecord, .reach hp rfl⟩

theorem readGreeting_movesTo {held : Bytes} {deadline : Nat} (hp : t.phase.isOpening = true) :
    w.MovesTo t fault (w.readGreeting t held deadline now) := by
  unfold readGreeting
  dsimp only
  split
  next t' hreceive =>
    obtain ⟨hphase, hrecord⟩ := Task.kept_of_receive hreceive
    exact (lose_movesTo (hphase ▸ hp)).of_eq hphase hrecord
  next held t' hreceive =>
    have hrecord := (Task.kept_of_receive hreceive).2
    exact ⟨hrecord, .reach hp rfl⟩
  next theirs t' hreceive =>
    have hrecord := (Task.kept_of_receive hreceive).2
    exact ⟨hrecord, .reach hp rfl⟩

theorem readBitmap_movesTo {remoteId : PeerId} {greeted : Nat} {held : Bytes}
    {deadline : Nat} (hp : t.phase.isOpening = true) :
    w.MovesTo t fault (w.readBitmap t remoteId greeted held deadline) := by
  simp only [readBitmap]
  split
  next t' hreceive =>
    obtain ⟨hphase, hrecord⟩ := Task.kept_of_receive hreceive
    exact (lose_movesTo (hphase ▸ hp)).of_eq hphase hrecord
  next held t' hreceive =>
    have hrecord := (Task.kept_of_receive hreceive).2
    exact ⟨hrecord, .reach hp rfl⟩
  next bits t' hreceive =>
    have hrecord := (Task.kept_of_receive hreceive).2
    exact ⟨hrecord, .opened _ hp⟩

theorem look_movesTo (hp : t.phase = .inSession s .looking) :
    w.MovesTo t fault (w.look t s now) := by
  have hclaim : t.claim? = none := by rw [Task.claim?_eq, hp]; rfl
  simp only [look]
  split
  next spec queue h => exact ⟨rfl, hp ▸ .claimed _ h⟩
  next queue h => exact ⟨rfl, hp ▸ .rested s _⟩
  next queue h =>
    simp only [leave, hclaim, giveBack]
    exact ⟨rfl, hp ▸ .idled h⟩
  next queue h =>
    simp only [leave, hclaim, giveBack]
    exact ⟨rfl, hp ▸ .drained h⟩

theorem announce_movesTo {spec : PieceSpec} {left : List Message}
    (hp : t.phase = .inSession s (.announcing spec left)) :
    w.MovesTo t fault (w.announce t s spec left now fault) := by
  simp only [announce]
  split
  next => exact go_movesTo hp rfl rfl
  next m rest =>
    split
    next e t' hsend =>
      obtain ⟨hphase, hrecord⟩ := Task.kept_of_send hsend
      exact (leave_movesTo (hphase.trans hp) rfl).of_eq hphase hrecord
    next t' hsend =>
      obtain ⟨hphase, hrecord⟩ := Task.kept_of_send hsend
      exact (go_movesTo (hphase.trans hp) rfl rfl).of_eq hphase hrecord

theorem obey_movesTo {a : Attempt} {m : Message} {work : Work} {deadline : Nat}
    (hp : t.phase = .inSession s work) (hspec : work.pursued? = some a.spec) :
    w.MovesTo t fault (w.obey t s a m deadline now) := by
  simp only [obey]
  split
  next cause h => exact leave_movesTo hp hspec
  next a' s' h =>
    refine go_movesTo hp hspec ?_
    simp only [Work.pursued?, Attempt.spec_handle h]
  next a' s' q h =>
    refine go_movesTo hp hspec ?_
    simp only [Work.pursued?, Attempt.spec_handle h]

theorem fetch_movesTo {a : Attempt} {held : Bytes} {deadline : Nat}
    (hp : t.phase = .inSession s (.fetching a held deadline)) :
    w.MovesTo t fault (w.fetch t s a held deadline now fault) := by
  unfold fetch
  split
  next hdone =>
    split
    next hverify => exact ⟨rfl, hp ▸ .fetched hverify⟩
    next => exact leave_movesTo hp rfl
  next =>
    split
    next q hq =>
      split
      next e t' hsend =>
        obtain ⟨hphase, hrecord⟩ := Task.kept_of_send hsend
        exact (leave_movesTo (hphase.trans hp) rfl).of_eq hphase hrecord
      next t' hsend =>
        obtain ⟨hphase, hrecord⟩ := Task.kept_of_send hsend
        exact (go_movesTo (hphase.trans hp) rfl rfl).of_eq hphase hrecord
    next =>
      dsimp only
      split
      next e t' hreceive =>
        obtain ⟨hphase, hrecord⟩ := Task.kept_of_receive hreceive
        exact (leave_movesTo (hphase.trans hp) rfl).of_eq hphase hrecord
      next held' t' hreceive =>
        obtain ⟨hphase, hrecord⟩ := Task.kept_of_receive hreceive
        exact (go_movesTo (hphase.trans hp) rfl rfl).of_eq hphase hrecord
      next m t' hreceive =>
        obtain ⟨hphase, hrecord⟩ := Task.kept_of_receive hreceive
        refine MovesTo.of_eq ?_ hphase hrecord
        exact obey_movesTo (hphase.trans hp) rfl

theorem serve_movesTo {a : Attempt} {q : BlockRequest} {reading : Reading} {deadline : Nat}
    (hp : t.phase = .inSession s (.serving a q reading deadline)) :
    w.MovesTo t fault (w.serve t s a q reading deadline fault) := by
  simp only [serve]
  split
  next => exact go_movesTo hp rfl rfl
  next block =>
    split
    next e t' hsend =>
      obtain ⟨hphase, hrecord⟩ := Task.kept_of_send hsend
      exact (leave_movesTo (hphase.trans hp) rfl).of_eq hphase hrecord
    next t' hsend =>
      obtain ⟨hphase, hrecord⟩ := Task.kept_of_send hsend
      exact (go_movesTo (hphase.trans hp) rfl rfl).of_eq hphase hrecord
  next => exact ⟨rfl, hp ▸ .read rfl⟩

theorem put_movesTo {spec : PieceSpec} {writing : Writing}
    (hp : t.phase = .inSession s (.storing spec writing)) :
    w.MovesTo t fault (w.put t s spec writing fault) := by
  simp only [put]
  split
  next e =>
    have hclaim : t.claim? = some spec := by rw [Task.claim?_eq, hp]; rfl
    refine ⟨rfl, ?_⟩
    simp only [leave, hclaim, giveBack]
    exact hp ▸ .refused s spec e
  next => exact ⟨rfl, hp ▸ .completed s spec⟩
  next herror hok =>
    have hleft : writing.isFinished = false := by
      cases writing with
      | finished result =>
          cases result with
          | error e => exact absurd rfl (herror e)
          | ok u => exact absurd rfl hok
      | _ => rfl
    exact ⟨rfl, hp ▸ .wrote hleft rfl⟩

theorem tell_movesTo {index : PieceIndex} (hp : t.phase = .inSession s (.telling index)) :
    w.MovesTo t fault (w.tell t s index fault) := by
  simp only [tell]
  split
  next e t' hsend =>
    obtain ⟨hphase, hrecord⟩ := Task.kept_of_send hsend
    have hclaim : t'.claim? = none := by rw [Task.claim?_eq, hphase, hp]; rfl
    refine ⟨hrecord, ?_⟩
    simp only [leave, hclaim, giveBack]
    exact hp ▸ .untold s index e
  next t' hsend =>
    have hrecord := (Task.kept_of_send hsend).2
    exact ⟨hrecord, hp ▸ .told s index⟩

theorem depart_movesTo {d : Departure} (hp : t.phase = .inSession s (.leaving d)) :
    w.MovesTo t fault (w.depart t d) := by
  cases d with
  | drained => exact ⟨rfl, hp ▸ .departed s⟩
  | nothingToOffer => exact ⟨rfl, hp ▸ .dropped (.inl rfl)⟩
  | failed e => exact ⟨rfl, hp ▸ .dropped (.inr ⟨e, rfl⟩)⟩
  | storageFailed e => exact ⟨rfl, hp ▸ .gaveUp s e⟩

/-- The next effect of a task is a move. -/
theorem proceed_movesTo (w : Shared) (t : Task) (now : Nat) (fault : Option Fault) :
    w.MovesTo t fault (w.proceed t now fault) := by
  simp only [proceed]
  cases hp : t.phase with
  | dialing deadline => exact movesTo_self
  | gone result joined => exact movesTo_self
  | greeting held deadline => exact readGreeting_movesTo (by rw [hp]; rfl)
  | opening remoteId greeted held deadline => exact readBitmap_movesTo (by rw [hp]; rfl)
  | inSession s work =>
      cases work with
      | looking => exact look_movesTo hp
      | resting wake =>
          dsimp only
          split
          next => exact ⟨rfl, hp ▸ .woke s wake⟩
          next => exact movesTo_self
      | announcing spec left => exact announce_movesTo hp
      | fetching a held deadline => exact fetch_movesTo hp
      | serving a q reading deadline => exact serve_movesTo hp
      | storing spec writing => exact put_movesTo hp
      | telling index => exact tell_movesTo hp
      | leaving d => exact depart_movesTo hp

/-- A deadline that passes makes the task leave what it waits for. -/
theorem expire_movesTo (w : Shared) (t : Task) (now : Nat) (fault : Option Fault) :
    w.MovesTo t fault (w.expire t now) := by
  simp only [expire, Task.deadline?]
  cases hp : t.phase with
  | dialing deadline =>
      dsimp only
      split
      next => exact movesTo_self
      next => exact lose_movesTo (by rw [hp]; rfl)
  | gone result joined => exact movesTo_self
  | greeting held deadline =>
      dsimp only
      split
      next => exact movesTo_self
      next => exact lose_movesTo (by rw [hp]; rfl)
  | opening remoteId greeted held deadline =>
      dsimp only
      split
      next => exact movesTo_self
      next => exact lose_movesTo (by rw [hp]; rfl)
  | inSession s work =>
      cases work with
      | looking => exact movesTo_self
      | resting wake => exact movesTo_self
      | announcing spec left => exact movesTo_self
      | storing spec writing => exact movesTo_self
      | telling index => exact movesTo_self
      | leaving d => exact movesTo_self
      | fetching a held deadline =>
          dsimp only
          split
          next => exact movesTo_self
          next => exact leave_movesTo hp rfl
      | serving a q reading deadline =>
          dsimp only
          split
          next => exact movesTo_self
          next => exact leave_movesTo hp rfl

end Shared

/-! ## Changes of a whole download -/

/-- The task that an event is about. -/
def Event.task? : Event → Option Nat
  | .refused k | .reached k _ _ | .arrived k _ | .ended k _ | .proceeded k _ _ | .clock k _
  | .aborted k | .joined k => some k
  | .closed _ => none

/-- The failure that an event puts upon a step. -/
def Event.fault? : Event → Option Fault
  | .reached _ _ fault | .proceeded _ _ fault | .closed fault => fault
  | .refused _ | .arrived _ _ | .ended _ _ | .clock _ _ | .aborted _ | .joined _ => none

/-- The store behind a task that is stopped in this phase. -/
def Phase.surrender : Phase → Store → Store
  | .inSession _ (.storing _ writing), store => writing.giveUp store
  | _, store => store

/-- The first failure of the store, once this end of a task was noticed. -/
def TaskEnd.noted : TaskEnd → Option StorageError → Option StorageError
  | .storageFailed e, fatal => some (fatal.getD e)
  | .finished, fatal | .cancelled, fatal => fatal

namespace Swarm

/-- What an event can make of a download. -/
inductive Change (w : Swarm) (e : Event) : Swarm → Prop
  | nothing : Change w e w
  | heard {k : Nat} {t t' : Task} (ht : w.tasks[k]? = some t) (hrecord : t'.record = t.record)
    (hphase : t'.phase = t.phase) : Change w e { w with tasks := w.tasks.set k t' }
  /-- A task moved.  No failure of the store is known. -/
  | moved {k : Nat} {t t' : Task} {shared : Shared} (he : e.task? = some k)
    (ht : w.tasks[k]? = some t) (hfatal : w.fatal = none) (hrecord : t'.record = t.record)
    (hmove : Move t.record e.fault? w.toShared t.phase shared t'.phase) :
    Change w e { w with toShared := shared, tasks := w.tasks.set k t' }
  /-- A task was stopped behind a failure of the store. -/
  | stopped {k : Nat} {t t' : Task} (ht : w.tasks[k]? = some t) (hfatal : w.fatal.isSome = true)
    (hrecord : t'.record = t.record) (hlive : ∀ result joined, t.phase ≠ .gone result joined)
    (hphase : t'.phase = .gone .cancelled false) :
    Change w e { w with
      toShared :=
        Shared.giveBack { w.toShared with store := t.phase.surrender w.store } t.phase.claim?
      tasks := w.tasks.set k t' }
  | joined {k : Nat} {t t' : Task} {result : TaskEnd} (ht : w.tasks[k]? = some t)
    (hphase : t.phase = .gone result false) (hrecord : t'.record = t.record)
    (hphase' : t'.phase = .gone result true) :
    Change w e { w with tasks := w.tasks.set k t', fatal := result.noted w.fatal }
  | finished {fault : Option Fault} (he : e = .closed fault) (htasks : w.tasks ≠ [])
    (hjoined : w.allJoined = true) (houtcome : w.outcome = none) : Change w e (w.finish fault)

theorem change_move {w : Swarm} {e : Event} {k : Nat} {f : Shared → Task → Moved}
    (hf : ∀ t, w.tasks[k]? = some t →
      (f w.toShared t).2.record = t.record ∧ (f w.toShared t).2.phase = t.phase ∧
        (f w.toShared t).1 = w.toShared) :
    Change w e (w.move k f) := by
  simp only [move]
  cases ht : w.tasks[k]? with
  | none => exact .nothing
  | some t =>
      obtain ⟨hrecord, hphase, hshared⟩ := hf t ht
      dsimp only
      rw [hshared]
      exact .heard ht hrecord hphase

theorem change_advance {w : Swarm} {e : Event} {k : Nat} {f : Shared → Task → Moved}
    (he : e.task? = some k) (hf : ∀ t, w.toShared.MovesTo t e.fault? (f w.toShared t)) :
    Change w e (w.advance k f) := by
  simp only [advance]
  split
  next => exact .nothing
  next hfatal =>
    simp only [move]
    cases ht : w.tasks[k]? with
    | none => exact .nothing
    | some t =>
        obtain ⟨hrecord, hmove⟩ := hf t
        exact .moved he ht (by simpa using hfatal) hrecord hmove

theorem change_abort {w : Swarm} {e : Event} {k : Nat} (hfatal : w.fatal.isSome = true) :
    Change w e (w.move k Shared.abort) := by
  simp only [move]
  cases ht : w.tasks[k]? with
  | none => exact .nothing
  | some t =>
      cases hp : t.phase with
      | gone result joined =>
          have : w.toShared.abort t = (w.toShared, t) := by simp only [Shared.abort, hp]
          dsimp only
          rw [this]
          exact .heard ht rfl rfl
      | inSession s work =>
          have hlive : ∀ result joined, t.phase ≠ .gone result joined := by simp [hp]
          have habort : w.toShared.abort t =
              (Shared.giveBack { w.toShared with store := t.phase.surrender w.store }
                t.phase.claim?, { t with phase := .gone .cancelled false }) := by
            cases work <;> simp only [Shared.abort, hp, Task.claim?_eq] <;> rfl
          dsimp only
          rw [habort]
          exact .stopped ht hfatal rfl hlive rfl
      | _ =>
          have hlive : ∀ result joined, t.phase ≠ .gone result joined := by simp [hp]
          have habort : w.toShared.abort t =
              (Shared.giveBack { w.toShared with store := t.phase.surrender w.store }
                t.phase.claim?, { t with phase := .gone .cancelled false }) := by
            simp only [Shared.abort, hp, Task.claim?_eq]
            rfl
          dsimp only
          rw [habort]
          exact .stopped ht hfatal rfl hlive rfl

theorem change_join (w : Swarm) (e : Event) (k : Nat) : Change w e (w.join k) := by
  simp only [join]
  cases ht : w.tasks[k]? with
  | none => exact .nothing
  | some t =>
      dsimp only
      split
      next result hp =>
        have hnoted : Change w e { w with
            tasks := w.tasks.set k { t with phase := .gone result true }
            fatal := result.noted w.fatal } := .joined ht hp rfl rfl
        cases result <;> exact hnoted
      next => exact .nothing

/-- An event makes nothing else of a download than one of the changes. -/
theorem change_step (w : Swarm) (e : Event) : Change w e (w.step e) := by
  cases e with
  | refused k =>
      refine change_advance rfl fun t => ?_
      cases hp : t.phase with
      | dialing deadline => exact Shared.lose_movesTo (by rw [hp]; rfl)
      | _ => exact Shared.movesTo_self
  | reached k now fault =>
      refine change_advance rfl fun t => ?_
      cases hp : t.phase with
      | dialing deadline => exact Shared.greet_movesTo (by rw [hp]; rfl)
      | _ => exact Shared.movesTo_self
  | arrived k bytes =>
      rw [step]
      refine change_move fun t _ => ⟨?_, ?_, rfl⟩
      · dsimp only
        split <;> rfl
      · dsimp only
        split <;> rfl
  | ended k ending =>
      rw [step]
      exact change_move fun t _ => ⟨rfl, rfl, rfl⟩
  | proceeded k now fault =>
      exact change_advance rfl fun t => Shared.proceed_movesTo w.toShared t now fault
  | clock k now => exact change_advance rfl fun t => Shared.expire_movesTo w.toShared t now none
  | aborted k =>
      simp only [step]
      split
      next hfatal => exact change_abort hfatal
      next => exact .nothing
  | joined k => exact change_join w _ k
  | closed fault =>
      simp only [step]
      split
      next h => exact .finished rfl h.1 h.2.1 (by simpa using h.2.2)
      next => exact .nothing

/-! ## The fate of one task -/

/-- What a change makes of the task with a number. -/
inductive Fate (w : Swarm) (e : Event) (w' : Swarm) (k : Nat) (t t' : Task) : Prop
  | rested (hphase : t'.phase = t.phase)
  | moved (he : e.task? = some k) (hfatal : w.fatal = none)
    (hmove : Move t.record e.fault? w.toShared t.phase w'.toShared t'.phase)
  | stopped (hfatal : w.fatal.isSome = true) (hphase : t'.phase = .gone .cancelled false)
  | joined {result : TaskEnd} (hphase : t.phase = .gone result false)
    (hphase' : t'.phase = .gone result true) (hfatal : w'.fatal = result.noted w.fatal)

theorem getElem?_set_cases {α : Type} {l : List α} {j k : Nat} {a b : α}
    (h : (l.set k b)[j]? = some a) : (j = k ∧ a = b) ∨ (j ≠ k ∧ l[j]? = some a) := by
  rw [List.getElem?_set] at h
  split at h
  next heq =>
    split at h
    next => exact .inl ⟨heq.symm, (Option.some.inj h).symm⟩
    next => cases h
  next hne => exact .inr ⟨fun heq => hne heq.symm, h⟩

/-- Every task is one that was there before, with a fate of its own. -/
theorem Change.fate {w w' : Swarm} {e : Event} (h : Change w e w') {j : Nat} {u' : Task}
    (hu' : w'.tasks[j]? = some u') :
    ∃ u, w.tasks[j]? = some u ∧ u'.record = u.record ∧ Fate w e w' j u u' := by
  cases h with
  | nothing => exact ⟨u', hu', rfl, .rested rfl⟩
  | heard ht hrecord hphase =>
      rcases getElem?_set_cases hu' with ⟨rfl, rfl⟩ | ⟨-, hu⟩
      · exact ⟨_, ht, hrecord, .rested hphase⟩
      · exact ⟨u', hu, rfl, .rested rfl⟩
  | moved he ht hfatal hrecord hmove =>
      rcases getElem?_set_cases hu' with ⟨rfl, rfl⟩ | ⟨-, hu⟩
      · exact ⟨_, ht, hrecord, .moved he hfatal hmove⟩
      · exact ⟨u', hu, rfl, .rested rfl⟩
  | stopped ht hfatal hrecord hlive hphase =>
      rcases getElem?_set_cases hu' with ⟨rfl, rfl⟩ | ⟨-, hu⟩
      · exact ⟨_, ht, hrecord, .stopped hfatal hphase⟩
      · exact ⟨u', hu, rfl, .rested rfl⟩
  | joined ht hphase hrecord hphase' =>
      rcases getElem?_set_cases hu' with ⟨rfl, rfl⟩ | ⟨-, hu⟩
      · exact ⟨_, ht, hrecord, .joined hphase hphase' rfl⟩
      · exact ⟨u', hu, rfl, .rested rfl⟩
  | finished => exact ⟨u', hu', rfl, .rested rfl⟩

theorem Change.length_tasks {w w' : Swarm} {e : Event} (h : Change w e w') :
    w'.tasks.length = w.tasks.length := by
  cases h <;> simp [finish, closeStore]

/-- Every task stays, with its peer. -/
theorem Change.task {w w' : Swarm} {e : Event} (h : Change w e w') {k : Nat} {t : Task}
    (ht : w.tasks[k]? = some t) : ∃ t', w'.tasks[k]? = some t' ∧ t'.record = t.record := by
  obtain ⟨hk, -⟩ := List.getElem?_eq_some_iff.1 ht
  rw [← h.length_tasks] at hk
  obtain ⟨t', ht'⟩ : ∃ t', w'.tasks[k]? = some t' := ⟨_, List.getElem?_eq_getElem hk⟩
  obtain ⟨u, hu, hrecord, -⟩ := h.fate ht'
  rw [ht] at hu
  cases hu
  exact ⟨t', ht', hrecord⟩

/-- A result stays. -/
theorem Change.outcome {w w' : Swarm} {e : Event} {result : Except TorrentError Bool}
    (h : Change w e w') (houtcome : w.outcome = some result) : w'.outcome = some result := by
  cases h with
  | finished he htasks hjoined hnone =>
      rw [houtcome] at hnone
      cases hnone
  | _ => exact houtcome

/-- A failure of the store that is known stays known. -/
theorem Change.fatal_isSome {w w' : Swarm} {e : Event} (h : Change w e w')
    (hfatal : w.fatal.isSome = true) : w'.fatal.isSome = true := by
  cases h with
  | @joined k t t' result => cases result <;> first | exact hfatal | rfl
  | _ => exact hfatal

/-! ## Moments of a run -/

theorem run_append (w : Swarm) (before after : List Event) :
    w.run (before ++ after) = (w.run before).run after := by
  simp only [run, List.foldl_append]

theorem run_concat (w : Swarm) (before : List Event) (e : Event) :
    w.run (before ++ [e]) = (w.run before).step e := w.run_append before [e]

/-- What holds in the beginning and is kept by every step that the run takes holds in the end. -/
theorem run_moments {P : Swarm → Prop} {w : Swarm} {events : List Event} (h : P w)
    (hstep : ∀ before e after, events = before ++ e :: after → P (w.run before) →
      P ((w.run before).step e)) : P (w.run events) := by
  induction events generalizing w with
  | nil => exact h
  | cons e events ih =>
      refine ih (hstep [] e events rfl h) ?_
      intro before e' after heq hbefore
      exact hstep (e :: before) e' after (by rw [heq, List.cons_append]) hbefore

/-- What every change keeps, every run keeps. -/
theorem run_induction {P : Swarm → Prop} {w : Swarm} (h : P w)
    (hstep : ∀ w e w', Change w e w' → P w → P w') (events : List Event) : P (w.run events) :=
  run_moments h fun before e _ _ hbefore => hstep (w.run before) e _ (change_step _ e) hbefore

/-- Something holds in every moment of a run. -/
def Throughout (P : Swarm → Prop) (w : Swarm) : List Event → Prop
  | [] => P w
  | e :: events => P w ∧ (w.step e).Throughout P events

instance Throughout.decidable (P : Swarm → Prop) [DecidablePred P] :
    ∀ (w : Swarm) (events : List Event), Decidable (w.Throughout P events)
  | w, [] => inferInstanceAs (Decidable (P w))
  | w, e :: events =>
    have := decidable P (w.step e) events
    inferInstanceAs (Decidable (P w ∧ (w.step e).Throughout P events))

theorem throughout_iff {P : Swarm → Prop} {w : Swarm} {events : List Event} :
    w.Throughout P events ↔ ∀ before, before <+: events → P (w.run before) := by
  induction events generalizing w with
  | nil => simp [Throughout, run]
  | cons e events ih =>
      rw [Throughout, ih]
      constructor
      · rintro ⟨h, hrest⟩ before hbefore
        rcases List.prefix_cons_iff.1 hbefore with rfl | ⟨before, rfl, hprefix⟩
        · exact h
        · exact hrest before hprefix
      · intro h
        exact ⟨h [] List.nil_prefix, fun before hbefore => h (e :: before) (by simpa using hbefore)⟩

theorem task_run {w : Swarm} {k : Nat} {t : Task} (ht : w.tasks[k]? = some t)
    (events : List Event) : ∃ t', (w.run events).tasks[k]? = some t' ∧ t'.record = t.record := by
  refine run_induction (P := fun v => ∃ t', v.tasks[k]? = some t' ∧ t'.record = t.record)
    ⟨t, ht, rfl⟩ ?_ events
  rintro v e v' hchange ⟨u, hu, hrecord⟩
  obtain ⟨u', hu', hrecord'⟩ := hchange.task hu
  exact ⟨u', hu', hrecord'.trans hrecord⟩

theorem outcome_run {w : Swarm} {result : Except TorrentError Bool}
    (houtcome : w.outcome = some result) (events : List Event) :
    (w.run events).outcome = some result :=
  run_induction (P := fun v => v.outcome = some result) houtcome
    (fun _ _ _ hchange h => hchange.outcome h) events

/-- What comes about in a run comes about in one of its steps. -/
theorem exists_step {P : Swarm → Prop} {w : Swarm} {events : List Event} (h : ¬P w)
    (hend : P (w.run events)) :
    ∃ before e after, events = before ++ e :: after ∧ ¬P (w.run before) ∧
      P ((w.run before).step e) := by
  induction events generalizing w with
  | nil => exact absurd hend h
  | cons e events ih =>
      by_cases hfirst : P (w.step e)
      · exact ⟨[], e, events, rfl, h, hfirst⟩
      · obtain ⟨before, e', after, heq, hbefore, hstep⟩ := ih hfirst hend
        exact ⟨e :: before, e', after, by rw [heq, List.cons_append], hbefore, hstep⟩

end Swarm

end Torrent
