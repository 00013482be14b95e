import Torrent.Proofs.Swarm.Move

/-!
# What a task does

A `Deed` is what a task does that its peer or its store may notice: it writes or
obeys a message, compares a piece with the digest, or has it stored.  `Task.deed?`
reads off a task which deed its next effect is, and `Swarm.deeds` lists the deeds
of one task in a run, in their order.

`Utters` and `Conduct` list what comes of the phase of a task with each deed, and
`Task.Does` also what comes of the bytes it sent.  `Swarm.does_step` says that
nothing else happens.  Where `Move` keeps the session and the messages out of
sight, these lists keep out of sight what the tasks share.
-/

namespace Torrent

/-- Something that a task does. -/
inductive Deed
  /-- It sets out to write a message. -/
  | writes (m : Message)
  | obeys (m : Message)
  /-- All of a piece has come, and its digest is looked at. -/
  | checks (spec : PieceSpec) (data : Bytes)
  /-- The writing of a piece has come to an end without a failure. -/
  | stores (index : PieceIndex)
deriving DecidableEq

/-- Whether a message says that no requests will be answered, if it says anything about that. -/
def Message.choking? (m : Message) : Option Bool :=
  match m.kind with
  | .choke => some true
  | .unchoke => some false
  | _ => none

namespace Deed

/-- The message that is written. -/
def written? : Deed → Option Message
  | writes m => some m
  | obeys _ | checks _ _ | stores _ => none

/-- What the deed lets us know about our requests. -/
def choking? : Deed → Option Bool
  | obeys m => m.choking?
  | writes _ | checks _ _ | stores _ => none

end Deed

/-- The deed that the next effect of a task is. -/
def Task.deed? (t : Task) (limit : UInt32) : Option Deed :=
  match t.phase with
  | .inSession _ (.announcing _ (m :: _)) => some (.writes m)
  | .inSession s (.fetching a held _) =>
    if a.isDone then some (.checks a.spec a.buffer)
    else
      match if a.state = .requesting then a.nextRequest? s else none with
      | some r => some (.writes (.request r.index r.start r.length))
      | none =>
        match (t.receive (Frame.receiver limit) held).1 with
        | .ok (.inr m) => some (.obeys m)
        | _ => none
  | .inSession _ (.serving _ r (.finished (some block)) _) =>
    some (.writes (.piece r.index r.start block))
  | .inSession _ (.storing spec (.finished (.ok ()))) => some (.stores spec.index)
  | .inSession _ (.telling index) => some (.writes (.have_ index))
  | _ => none

namespace Swarm

/-- What the task with a number does at an event. -/
def deed? (w : Swarm) (k : Nat) : Event → Option Deed
  | .proceeded j _ _ =>
    if j = k ∧ w.fatal = none then w.tasks[k]?.bind fun t => t.deed? w.settings.maxMessageLength
    else none
  | _ => none

/-- What the task with a number does in a run. -/
def deeds (w : Swarm) (k : Nat) : List Event → List Deed
  | [] => []
  | e :: events => (w.deed? k e).toList ++ (w.step e).deeds k events

theorem deeds_concat (w : Swarm) (k : Nat) (events : List Event) (e : Event) :
    w.deeds k (events ++ [e]) = w.deeds k events ++ ((w.run events).deed? k e).toList := by
  induction events generalizing w with
  | nil => exact List.append_nil _
  | cons e' events ih =>
      rw [List.cons_append, deeds, deeds, ih, List.append_assoc]
      rfl

end Swarm

/-! ## Deeds of one task -/

/-- Whether our greeting went out and the session has not begun. -/
def Phase.isGreeted : Phase → Bool
  | .greeting _ _ | .opening _ _ _ _ => true
  | .dialing _ | .inSession _ _ | .gone _ _ => false

/-- Whether the task has nothing more to say. -/
def Phase.isOver : Phase → Bool
  | .inSession _ (.leaving _) | .gone _ _ => true
  | _ => false

/-- Whether a piece goes to and fro between the peers. -/
def Work.isExchange : Work → Bool
  | .fetching _ _ _ | .serving _ _ _ _ => true
  | _ => false

/-- What a session still has to announce before it asks for anything. -/
def Session.unannounced (s : Session) : List Message :=
  if s.interestSent then [] else [.unchoke, .interested]

/-- What a task that writes a message goes on with when all of it went out. -/
inductive Utters : Phase → Message → Phase → Prop
  | announced (s : Session) (spec : PieceSpec) (m : Message) (rest : List Message) :
    Utters (.inSession s (.announcing spec (m :: rest))) m (.inSession s (.announcing spec rest))
  | asked {s : Session} {a : Attempt} {r : BlockRequest} (held : Bytes) (deadline : Nat)
    (h : a.nextRequest? s = some r) :
    Utters (.inSession s (.fetching a held deadline)) (.request r.index r.start r.length)
      (.inSession s (.fetching (a.afterRequest r) held deadline))
  | answered (s : Session) (a : Attempt) (r : BlockRequest) (block : Bytes) (deadline : Nat) :
    Utters (.inSession s (.serving a r (.finished (some block)) deadline))
      (.piece r.index r.start block) (.inSession s (.fetching a [] deadline))
  | told (s : Session) (index : PieceIndex) :
    Utters (.inSession s (.telling index)) (.have_ index) (.inSession s .looking)

/-- What a task goes on with when it writes nothing. -/
inductive Conduct : Phase → Option Deed → Phase → Prop
  | stay (p : Phase) : Conduct p none p
  | greeted {p p' : Phase} (hp : p.isGreeted = true) (hp' : p'.isGreeted = true) :
    Conduct p none p'
  | opened {p : Phase} {s : Session} (hp : p.isGreeted = true) (hchoked : s.choked = true)
    (hinterest : s.interestSent = false) : Conduct p none (.inSession s .looking)
  | claimed (s : Session) (spec : PieceSpec) :
    Conduct (.inSession s .looking) none (.inSession s (.announcing spec s.unannounced))
  | rested (s : Session) (wake : Nat) :
    Conduct (.inSession s .looking) none (.inSession s (.resting wake))
  | woke (s : Session) (wake : Nat) :
    Conduct (.inSession s (.resting wake)) none (.inSession s .looking)
  | begun (s : Session) (spec : PieceSpec) (a : Attempt) (deadline : Nat) :
    Conduct (.inSession s (.announcing spec [])) none
      (.inSession { s with interestSent := true } (.fetching a [] deadline))
  | waited (s : Session) {work work' : Work} (h : work.isExchange = true)
    (h' : work'.isExchange = true) : Conduct (.inSession s work) none (.inSession s work')
  | obeyed {s s' : Session} {work work' : Work} {m : Message} (h : work.isExchange = true)
    (h' : work'.isExchange = true) (hchoked : s'.choked = m.choking?.getD s.choked)
    (hinterest : s'.interestSent = s.interestSent) :
    Conduct (.inSession s work) (some (.obeys m)) (.inSession s' work')
  | passed {s : Session} {a : Attempt} (held : Bytes) (deadline : Nat) (writing : Writing)
    (h : a.spec.verify a.buffer = true) :
    Conduct (.inSession s (.fetching a held deadline)) (some (.checks a.spec a.buffer))
      (.inSession s (.storing a.spec writing))
  | wrote (s : Session) (spec : PieceSpec) (writing writing' : Writing) :
    Conduct (.inSession s (.storing spec writing)) none (.inSession s (.storing spec writing'))
  | stored (s : Session) (spec : PieceSpec) :
    Conduct (.inSession s (.storing spec (.finished (.ok ())))) (some (.stores spec.index))
      (.inSession s (.telling spec.index))
  | ended {p p' : Phase} {deed : Option Deed} (hp' : p'.isOver = true)
    (hquiet : deed.bind Deed.written? = none) : Conduct p deed p'

/-- What comes of a task with a deed, when this is the greeting that it opens with.  A failure lets
only a part of a message out, and then the task has nothing more to say. -/
inductive Task.Does (hello : Bytes) (t : Task) : Option Deed → Task → Prop
  | quiet {deed : Option Deed} {t' : Task} (hsent : t'.sent = t.sent)
    (h : Conduct t.phase deed t'.phase) : Does hello t deed t'
  | said {m : Message} {t' : Task} (hsent : t'.sent = t.sent ++ Frame.encode m)
    (h : Utters t.phase m t'.phase) : Does hello t (some (.writes m)) t'
  | broken {m : Message} {t' : Task} {p : Phase} (n : Nat)
    (hsent : t'.sent = t.sent ++ (Frame.encode m).take n) (h : Utters t.phase m p)
    (hover : t'.phase.isOver = true) : Does hello t (some (.writes m)) t'
  | hailed {t' : Task} {deadline : Nat} (hp : t.phase = .dialing deadline)
    (hsent : t'.sent = t.sent ++ hello) (hp' : t'.phase.isGreeted = true) : Does hello t none t'
  | unhailed {t' : Task} {deadline : Nat} (n : Nat) (hp : t.phase = .dialing deadline)
    (hsent : t'.sent = t.sent ++ hello.take n) (hover : t'.phase.isOver = true) :
    Does hello t none t'

theorem Conduct.written?_eq_none {p p' : Phase} {deed : Option Deed} (h : Conduct p deed p') :
    deed.bind Deed.written? = none := by
  cases h with
  | ended hp' hquiet => exact hquiet
  | _ => rfl

namespace Task

variable {t : Task}

/-- What was sent went out whole, or a failure let a part of it out. -/
theorem send_cases (t : Task) (bytes : Bytes) (fault : Option Fault) :
    t.send bytes fault = (.ok (), { t with sent := t.sent ++ bytes }) ∨
      ∃ e n, t.send bytes fault = (.error e, { t with sent := t.sent ++ bytes.take n }) := by
  cases fault with
  | none => exact .inl rfl
  | some fault => exact .inr ⟨_, _, rfl⟩

theorem sent_receive {α : Type} (t : Task) (r : Receiver (Except PeerError α)) (held : Bytes) :
    (t.receive r held).2.sent = t.sent := by
  unfold receive
  split
  next => rfl
  next => rfl
  next =>
    dsimp only
    split <;> rfl

end Task

/-- No message changes whether we told of our interest, and only two change whether we may ask. -/
theorem Attempt.session_handle {a a' : Attempt} {s s' : Session} {now : Nat} {m : Message}
    {q : Option BlockRequest} (h : a.handle s now m = .ok (a', s', q)) :
    s'.choked = m.choking?.getD s.choked ∧ s'.interestSent = s.interestSent := by
  simp only [Attempt.handle] at h
  simp only [Message.choking?]
  split at h
  case h_3 hkind | h_5 hkind | h_6 hkind =>
    split at h
    next => cases h
    next =>
      cases h
      rw [hkind]
      exact ⟨rfl, rfl⟩
  all_goals
    next hkind =>
      cases h
      rw [hkind]
      exact ⟨rfl, rfl⟩

namespace Shared

variable {w : Shared} {t : Task} {s : Session} {fault : Option Fault} {now : Nat}

/-- The greeting that tasks open with. -/
def hello (w : Shared) : Bytes := (Handshake.ours w.descriptor.infoHash w.localId).encode

/-- A step of a task is its deed. -/
def Does (w : Shared) (t : Task) (m : Moved) : Prop :=
  t.Does w.hello (t.deed? w.settings.maxMessageLength) m.2

theorem does_self (hdeed : t.deed? w.settings.maxMessageLength = none) : w.Does t (w, t) := by
  rw [Does, hdeed]
  exact .quiet rfl (.stay _)

theorem lose_does {t' : Task} (hsent : t'.sent = t.sent)
    (hdeed : t.deed? w.settings.maxMessageLength = none) : w.Does t (w.lose t') := by
  rw [Does, hdeed]
  exact .quiet hsent (.ended rfl rfl)

/-- A task that leaves its session has nothing more to say. -/
theorem leave_does {t' : Task} {d : Departure} (hsent : t'.sent = t.sent)
    (hquiet : (t.deed? w.settings.maxMessageLength).bind Deed.written? = none) :
    w.Does t (w.leave t' s d) :=
  .quiet hsent (.ended rfl hquiet)

/-- A task writes a message and goes on, or leaves where the writing fails. -/
theorem utters_does {m : Message} {work : Work} (h : Utters t.phase m (.inSession s work))
    (fault : Option Fault) :
    t.Does w.hello (some (.writes m))
      (match t.send (Frame.encode m) fault with
        | (.error e, t) => w.leave t s (.failed e)
        | (.ok (), t) => w.go t s work).2 := by
  rcases t.send_cases (Frame.encode m) fault with hsend | ⟨e, n, hsend⟩
  · rw [hsend]
    exact .said rfl h
  · rw [hsend]
    exact .broken n rfl h rfl

theorem greet_does {deadline : Nat} (hp : t.phase = .dialing deadline) :
    t.Does w.hello none (w.greet t now fault).2 := by
  simp only [greet]
  rcases t.send_cases w.hello fault with hsend | ⟨e, n, hsend⟩
  · rw [hello] at hsend
    rw [hsend]
    exact .hailed hp rfl rfl
  · rw [hello] at hsend
    rw [hsend]
    exact .unhailed n hp rfl rfl

theorem readGreeting_does {held : Bytes} {deadline : Nat}
    (hp : t.phase = .greeting held deadline) :
    w.Does t (w.readGreeting t held deadline now) := by
  have hdeed : t.deed? w.settings.maxMessageLength = none := by
    simp only [Task.deed?, hp]
  have hsent := t.sent_receive (Handshake.ours w.descriptor.infoHash w.localId).receiver held
  have hgreeted : t.phase.isGreeted = true := by
    rw [hp]
    rfl
  simp only [readGreeting]
  split
  next t' hreceive =>
    rw [hreceive] at hsent
    exact lose_does hsent hdeed
  next held t' hreceive =>
    rw [hreceive] at hsent
    rw [Does, hdeed]
    exact .quiet hsent (.greeted hgreeted rfl)
  next theirs t' hreceive =>
    rw [hreceive] at hsent
    rw [Does, hdeed]
    exact .quiet hsent (.greeted hgreeted rfl)

theorem readBitmap_does {remoteId : PeerId} {greeted : Nat} {held : Bytes}
    {deadline : Nat} (hp : t.phase = .opening remoteId greeted held deadline) :
    w.Does t (w.readBitmap t remoteId greeted held deadline) := by
  have hdeed : t.deed? w.settings.maxMessageLength = none := by
    simp only [Task.deed?, hp]
  have hsent := t.sent_receive (Frame.bitmapReceiver w.settings.maxMessageLength) held
  have hgreeted : t.phase.isGreeted = true := by
    rw [hp]
    rfl
  simp only [readBitmap]
  split
  next t' hreceive =>
    rw [hreceive] at hsent
    exact lose_does hsent hdeed
  next held t' hreceive =>
    rw [hreceive] at hsent
    rw [Does, hdeed]
    exact .quiet hsent (.greeted hgreeted rfl)
  next bits t' hreceive =>
    rw [hreceive] at hsent
    rw [Does, hdeed]
    exact .quiet hsent (.opened hgreeted rfl rfl)

theorem look_does (hp : t.phase = .inSession s .looking) : w.Does t (w.look t s now) := by
  have hdeed : t.deed? w.settings.maxMessageLength = none := by
    simp only [Task.deed?, hp]
  simp only [look]
  split
  next spec queue h =>
    rw [Does, hdeed]
    exact .quiet rfl (hp ▸ .claimed s spec)
  next queue h =>
    rw [Does, hdeed]
    exact .quiet rfl (hp ▸ .rested s _)
  next queue h => exact leave_does rfl (by rw [hdeed]; rfl)
  next queue h => exact leave_does rfl (by rw [hdeed]; rfl)

theorem announce_does {spec : PieceSpec} {left : List Message}
    (hp : t.phase = .inSession s (.announcing spec left)) :
    w.Does t (w.announce t s spec left now fault) := by
  cases left with
  | nil =>
      simp only [Does, Task.deed?, hp]
      exact .quiet rfl (hp ▸ .begun s spec _ _)
  | cons m rest =>
      simp only [Does, Task.deed?, hp, announce]
      exact utters_does (hp ▸ .announced ..) fault

theorem obey_does {t' : Task} {work : Work} {a : Attempt} {m : Message} {deadline : Nat}
    (hp : t.phase = .inSession s work) (hwork : work.isExchange = true)
    (hsent : t'.sent = t.sent) :
    t.Does w.hello (some (.obeys m)) (w.obey t' s a m deadline now).2 := by
  simp only [obey]
  split
  next cause h => exact .quiet hsent (.ended rfl rfl)
  next a' s' h =>
    obtain ⟨hchoked, hinterest⟩ := Attempt.session_handle h
    exact .quiet hsent (hp ▸ .obeyed hwork rfl hchoked hinterest)
  next a' s' q h =>
    obtain ⟨hchoked, hinterest⟩ := Attempt.session_handle h
    exact .quiet hsent (hp ▸ .obeyed hwork rfl hchoked hinterest)

theorem fetch_does {a : Attempt} {held : Bytes} {deadline : Nat}
    (hp : t.phase = .inSession s (.fetching a held deadline)) :
    w.Does t (w.fetch t s a held deadline now fault) := by
  simp only [Does, Task.deed?, hp, fetch]
  by_cases hdone : a.isDone = true
  · rw [if_pos hdone, if_pos hdone]
    split
    next hverify => exact .quiet rfl (hp ▸ .passed held deadline _ hverify)
    next => exact .quiet rfl (.ended rfl rfl)
  rw [if_neg hdone, if_neg hdone]
  cases hnext : (if a.state = .requesting then a.nextRequest? s else none) with
  | some r =>
      have hasks : a.nextRequest? s = some r := by
        split at hnext
        next => exact hnext
        next => cases hnext
      exact utters_does (hp ▸ .asked held deadline hasks) fault
  | none =>
      have hsent := t.sent_receive (Frame.receiver w.settings.maxMessageLength) held
      dsimp only
      cases hreceive : t.receive (Frame.receiver w.settings.maxMessageLength) held with
      | mk result t' =>
          rw [hreceive] at hsent
          cases result with
          | error e => exact .quiet hsent (.ended rfl rfl)
          | ok read =>
              cases read with
              | inl held' => exact .quiet hsent (hp ▸ .waited s rfl rfl)
              | inr m => exact obey_does hp rfl hsent

theorem serve_does {a : Attempt} {q : BlockRequest} {reading : Reading} {deadline : Nat}
    (hp : t.phase = .inSession s (.serving a q reading deadline)) :
    w.Does t (w.serve t s a q reading deadline fault) := by
  cases reading with
  | finished result =>
      cases result with
      | none =>
          simp only [Does, Task.deed?, hp]
          exact .quiet rfl (hp ▸ .waited s rfl rfl)
      | some block =>
          simp only [Does, Task.deed?, hp, serve]
          exact utters_does (hp ▸ .answered ..) fault
  | _ =>
      simp only [Does, Task.deed?, hp]
      exact .quiet rfl (hp ▸ .waited s rfl rfl)

theorem put_does {spec : PieceSpec} {writing : Writing}
    (hp : t.phase = .inSession s (.storing spec writing)) :
    w.Does t (w.put t s spec writing fault) := by
  cases writing with
  | finished result =>
      cases result with
      | error e =>
          simp only [Does, Task.deed?, hp]
          exact .quiet rfl (.ended rfl rfl)
      | ok =>
          simp only [Does, Task.deed?, hp]
          exact .quiet rfl (hp ▸ .stored s spec)
  | _ =>
      simp only [Does, Task.deed?, hp]
      exact .quiet rfl (hp ▸ .wrote s spec _ _)

theorem tell_does {index : PieceIndex} (hp : t.phase = .inSession s (.telling index)) :
    w.Does t (w.tell t s index fault) := by
  simp only [Does, Task.deed?, hp, tell]
  exact utters_does (hp ▸ .told s index) fault

theorem depart_does {d : Departure} (hp : t.phase = .inSession s (.leaving d)) :
    w.Does t (w.depart t d) := by
  simp only [Does, Task.deed?, hp]
  cases d with
  | _ => exact .quiet rfl (.ended rfl rfl)

/-- The next effect of a task is its deed. -/
theorem proceed_does (w : Shared) (t : Task) (now : Nat) (fault : Option Fault) :
    w.Does t (w.proceed t now fault) := by
  simp only [proceed]
  cases hp : t.phase with
  | dialing deadline => exact does_self (by simp only [Task.deed?, hp])
  | gone result joined => exact does_self (by simp only [Task.deed?, hp])
  | greeting held deadline => exact readGreeting_does hp
  | opening remoteId greeted held deadline => exact readBitmap_does hp
  | inSession s work =>
      cases work with
      | looking => exact look_does hp
      | resting wake =>
          simp only [Does, Task.deed?, hp]
          split
          next => exact .quiet rfl (hp ▸ .woke s wake)
          next => exact .quiet rfl (.stay _)
      | announcing spec left => exact announce_does hp
      | fetching a held deadline => exact fetch_does hp
      | serving a q reading deadline => exact serve_does hp
      | storing spec writing => exact put_does hp
      | telling index => exact tell_does hp
      | leaving d => exact depart_does hp

/-- A deadline that passes makes a task stop or leave. -/
theorem expire_does (w : Shared) (t : Task) (now : Nat) :
    t.Does w.hello none (w.expire t now).2 := by
  simp only [expire]
  split
  next => exact .quiet rfl (.stay _)
  next =>
    split
    next => exact .quiet rfl (.stay _)
    next =>
      split
      next => exact .quiet rfl (.ended rfl rfl)
      next => exact .quiet rfl (.ended rfl rfl)

theorem abort_does (w : Shared) (t : Task) : t.Does w.hello none (w.abort t).2 := by
  simp only [abort]
  split
  next => exact .quiet rfl (.stay _)
  next => exact .quiet rfl (.ended rfl rfl)
  next => exact .quiet rfl (.ended rfl rfl)

end Shared

/-! ## Deeds in a whole download -/

namespace Swarm

variable {w : Swarm} {k : Nat} {t' : Task} {deed : Option Deed}

/-- A task that stands still does nothing. -/
theorem does_same (hdeed : deed = none) (ht' : w.tasks[k]? = some t') :
    ∃ t, w.tasks[k]? = some t ∧ t.Does w.hello deed t' :=
  ⟨t', ht', hdeed ▸ .quiet rfl (.stay _)⟩

/-- A move of one task is a deed of that task and of no other. -/
theorem does_move {j : Nat} {f : Shared → Task → Moved} (hother : j ≠ k → deed = none)
    (hf : ∀ t, w.tasks[k]? = some t → j = k → t.Does w.hello deed (f w.toShared t).2)
    (ht' : (w.move j f).tasks[k]? = some t') :
    ∃ t, w.tasks[k]? = some t ∧ t.Does w.hello deed t' := by
  simp only [move] at ht'
  cases hj : w.tasks[j]? with
  | none =>
      rw [hj] at ht'
      refine does_same (hother ?_) ht'
      rintro rfl
      rw [hj] at ht'
      cases ht'
  | some t =>
      rw [hj] at ht'
      rcases getElem?_set_cases ht' with ⟨rfl, rfl⟩ | ⟨hne, ht'⟩
      · exact ⟨t, hj, hf t hj rfl⟩
      · exact does_same (hother hne.symm) ht'

theorem does_advance {j : Nat} {f : Shared → Task → Moved} (hother : j ≠ k → deed = none)
    (hfatal : w.fatal ≠ none → deed = none)
    (hf : ∀ t, w.tasks[k]? = some t → j = k → w.fatal = none →
      t.Does w.hello deed (f w.toShared t).2)
    (ht' : (w.advance j f).tasks[k]? = some t') :
    ∃ t, w.tasks[k]? = some t ∧ t.Does w.hello deed t' := by
  simp only [advance] at ht'
  split at ht'
  next hsome =>
    refine does_same (hfatal ?_) ht'
    exact Option.isSome_iff_ne_none.1 hsome
  next hnone =>
    refine does_move hother (fun t ht hj => hf t ht hj ?_) ht'
    simpa using hnone

/-- What becomes of a task in a step comes of its deed. -/
theorem does_step (e : Event) (ht' : (w.step e).tasks[k]? = some t') :
    ∃ t, w.tasks[k]? = some t ∧ t.Does w.hello (w.deed? k e) t' := by
  cases e with
  | refused j =>
      refine does_advance (fun _ => rfl) (fun _ => rfl) (fun t _ _ _ => ?_) ht'
      cases hp : t.phase with
      | dialing deadline => exact .quiet rfl (.ended rfl rfl)
      | _ => exact .quiet rfl (.stay _)
  | reached j now fault =>
      refine does_advance (fun _ => rfl) (fun _ => rfl) (fun t _ _ _ => ?_) ht'
      cases hp : t.phase with
      | dialing deadline => exact Shared.greet_does hp
      | _ => exact .quiet rfl (.stay _)
  | arrived j bytes =>
      refine does_move (fun _ => rfl) (fun t _ _ => ?_) ht'
      dsimp only
      split
      next => exact .quiet rfl (.stay _)
      next => exact .quiet rfl (.stay _)
  | ended j ending => exact does_move (fun _ => rfl) (fun t _ _ => .quiet rfl (.stay _)) ht'
  | proceeded j now fault =>
      refine does_advance (fun hne => ?_) (fun hfatal => ?_) (fun t ht hj hfatal => ?_) ht'
      · exact if_neg fun h => hne h.1
      · exact if_neg fun h => hfatal h.2
      · have hdeed : w.deed? k (.proceeded j now fault) =
            t.deed? w.settings.maxMessageLength := by
          rw [deed?, if_pos ⟨hj, hfatal⟩, ht, Option.bind_some]
        rw [hdeed]
        exact Shared.proceed_does w.toShared t now fault
  | clock j now =>
      refine does_advance (fun _ => rfl) (fun _ => rfl) (fun t _ _ _ => ?_) ht'
      exact Shared.expire_does w.toShared t now
  | aborted j =>
      simp only [step] at ht'
      split at ht'
      next => exact does_move (fun _ => rfl) (fun t _ _ => Shared.abort_does w.toShared t) ht'
      next => exact does_same rfl ht'
  | joined j =>
      simp only [step, join] at ht'
      split at ht'
      next => exact does_same rfl ht'
      next t ht =>
        split at ht'
        next result hp =>
          have hset : (w.tasks.set j { t with phase := .gone result true })[k]? = some t' := by
            cases result <;> exact ht'
          rcases getElem?_set_cases hset with ⟨rfl, rfl⟩ | ⟨-, hsame⟩
          · exact ⟨t, ht, .quiet rfl (.ended rfl rfl)⟩
          · exact does_same rfl hsame
        next => exact does_same rfl ht'
  | closed fault =>
      simp only [step] at ht'
      split at ht'
      next => exact does_same rfl ht'
      next => exact does_same rfl ht'

end Swarm

end Torrent
