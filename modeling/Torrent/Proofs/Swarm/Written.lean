import Mathlib.Data.List.Induction
import Torrent.Proofs.Attempt.Requests
import Torrent.Proofs.Swarm.Deeds
import Torrent.Proofs.Swarm.Ledger

/-!
# What a session writes

The bytes that a task sends are a prefix of our greeting and whole frames, of
which only the last one may be cut off.  The frames tell first that the peer may
ask and that we are interested, each once, and then hold requests, blocks and
news of pieces.

`Phase.Follows` says which deeds may lie behind a task in a phase.  Deeds and
writing keep it (`Conduct.follows`, `Utters.follows`), so the phase in which a
message is written tells what came before the message.  That a peer is told of a
piece only once is a matter of the books: a piece that is complete is not
outstanding any more (`Swarm.Recounts`).  `Swarm.session_written` puts this
together for whole runs.
-/

namespace Torrent

/-! ## What lies behind a task -/

namespace Deed

/-- The messages that a task set out to write. -/
def messages (done : List Deed) : List Message := done.filterMap written?

/-- What the last message said that lets us ask or stops us. -/
def lastChoking? (done : List Deed) : Option Bool := (done.filterMap choking?).getLast?

theorem eq_writes_of_written? {x : Deed} {m : Message} (h : x.written? = some m) :
    x = writes m := by
  cases x with
  | writes m' => exact congrArg writes (Option.some.inj h)
  | _ => cases h

theorem messages_concat (done : List Deed) (deed : Option Deed) :
    messages (done ++ deed.toList) = messages done ++ (deed.bind written?).toList := by
  cases deed with
  | none =>
      rw [Option.toList_none, List.append_nil]
      exact (List.append_nil _).symm
  | some x =>
      simp only [messages, Option.toList_some, List.filterMap_append, Option.bind_some]
      rw [List.filterMap_cons]
      cases written? x <;> rfl

theorem lastChoking?_concat (done : List Deed) (deed : Option Deed) :
    lastChoking? (done ++ deed.toList) = (deed.bind choking?).or (lastChoking? done) := by
  cases deed with
  | none =>
      rw [Option.toList_none, List.append_nil]
      rfl
  | some x =>
      simp only [lastChoking?, Option.toList_some, List.filterMap_append, Option.bind_some]
      rw [List.filterMap_cons]
      cases choking? x with
      | none => simp
      | some b => simp

end Deed

/-- The messages begin with our interest, told once, and then it is about pieces only. -/
def Introduces (ms : List Message) : Prop :=
  ∃ rest, ms = .unchoke :: .interested :: rest ∧
    ∀ m ∈ rest, m.kind = .request ∨ m.kind = .piece ∨ m.kind = .have_

section

variable {ms left : List Message} {m : Message}

theorem Introduces.concat (h : Introduces ms)
    (hm : m.kind = .request ∨ m.kind = .piece ∨ m.kind = .have_) : Introduces (ms ++ [m]) := by
  obtain ⟨rest, rfl, hrest⟩ := h
  refine ⟨rest ++ [m], rfl, fun m' hm' => ?_⟩
  rcases List.mem_append.1 hm' with hm' | hm'
  · exact hrest m' hm'
  · rw [List.mem_singleton.1 hm']
    exact hm

/-- Messages that may go on in the right way are a part of the introduction, or they have all of
it. -/
theorem Introduces.of_append (h : Introduces (ms ++ left)) :
    ms <+: [.unchoke, .interested] ∨ Introduces ms := by
  obtain ⟨rest, heq, hrest⟩ := h
  match ms, heq with
  | [], _ => exact .inl (List.nil_prefix)
  | [m], heq =>
      cases heq
      exact .inl ⟨[.interested], rfl⟩
  | m :: m' :: ms, heq =>
      cases heq
      exact .inr ⟨ms, rfl, fun x hx => hrest x (List.mem_append_left _ hx)⟩

end

/-- The deeds that may lie behind work in a session. -/
def Work.Follows (s : Session) (done : List Deed) : Work → Prop
  | .looking | .resting _ => Introduces (Deed.messages done ++ s.unannounced)
  | .announcing _ left =>
    left <:+ [.unchoke, .interested] ∧ Introduces (Deed.messages done ++ left)
  | .fetching _ _ _ | .serving _ _ _ _ =>
    s.interestSent = true ∧ Introduces (Deed.messages done)
  | .storing spec _ =>
    s.interestSent = true ∧ Introduces (Deed.messages done) ∧
      ∃ front data, done = front ++ [.checks spec data] ∧ spec.verify data = true
  | .telling i =>
    s.interestSent = true ∧ Introduces (Deed.messages done) ∧
      ∃ front spec data, done = front ++ [.checks spec data, .stores i] ∧ spec.index = i ∧
        spec.verify data = true
  | .leaving _ => ∃ left, Introduces (Deed.messages done ++ left)

/-- The deeds that may lie behind a task in a phase. -/
def Phase.Follows (done : List Deed) : Phase → Prop
  | .dialing _ | .greeting _ _ | .opening _ _ _ _ => done = []
  | .inSession _ (.leaving _) | .gone _ _ => ∃ left, Introduces (Deed.messages done ++ left)
  | .inSession s work => s.choked = (Deed.lastChoking? done).getD true ∧ work.Follows s done

section

variable {p p' : Phase} {done : List Deed} {deed : Option Deed} {s : Session} {work : Work}

/-- What a task wrote may always go on in the right way. -/
theorem Phase.Follows.introduces (h : p.Follows done) :
    ∃ left, Introduces (Deed.messages done ++ left) := by
  have hnew : done = [] → ∃ left, Introduces (Deed.messages done ++ left) := by
    rintro rfl
    exact ⟨[.unchoke, .interested], [], rfl, nofun⟩
  cases p with
  | dialing deadline => exact hnew h
  | greeting held deadline => exact hnew h
  | opening remoteId greeted held deadline => exact hnew h
  | gone result joined => exact h
  | inSession s work =>
      cases work with
      | leaving d => exact h
      | looking => exact ⟨_, h.2⟩
      | resting wake => exact ⟨_, h.2⟩
      | announcing spec left => exact ⟨_, h.2.2⟩
      | fetching a held deadline => exact ⟨[], by simpa using h.2.2⟩
      | serving a q reading deadline => exact ⟨[], by simpa using h.2.2⟩
      | storing spec writing => exact ⟨[], by simpa using h.2.2.1⟩
      | telling i => exact ⟨[], by simpa using h.2.2.1⟩

theorem Phase.follows_of_isOver (hp : p.isOver = true)
    (h : ∃ left, Introduces (Deed.messages done ++ left)) : p.Follows done := by
  cases p with
  | gone result joined => exact h
  | inSession s work =>
      cases work with
      | leaving d => exact h
      | _ => cases hp
  | _ => cases hp

theorem Phase.follows_iff_of_isGreeted (hp : p.isGreeted = true) : p.Follows done ↔ done = [] := by
  cases p with
  | greeting held deadline => exact .rfl
  | opening remoteId greeted held deadline => exact .rfl
  | _ => cases hp

theorem Phase.follows_iff_of_isExchange (hwork : work.isExchange = true) :
    (Phase.inSession s work).Follows done ↔ s.choked = (Deed.lastChoking? done).getD true ∧
      s.interestSent = true ∧ Introduces (Deed.messages done) := by
  cases work with
  | fetching a held deadline => exact .rfl
  | serving a q reading deadline => exact .rfl
  | _ => cases hwork

/-- Whatever a task does without writing, it has the right deeds behind it. -/
theorem Conduct.follows (h : Conduct p deed p') (hp : p.Follows done) :
    p'.Follows (done ++ deed.toList) := by
  have hmessages := Deed.messages_concat done deed
  rw [h.written?_eq_none, Option.toList_none, List.append_nil] at hmessages
  have hchoking := Deed.lastChoking?_concat done deed
  cases h with
  | stay =>
      rw [Option.toList_none, List.append_nil]
      exact hp
  | greeted hgreeted hgreeted' =>
      rw [Phase.follows_iff_of_isGreeted hgreeted] at hp
      rw [Phase.follows_iff_of_isGreeted hgreeted', hp]
      rfl
  | opened hgreeted hchoked hinterest =>
      rw [Phase.follows_iff_of_isGreeted hgreeted] at hp
      subst hp
      refine ⟨hchoked, [], ?_, nofun⟩
      rw [Session.unannounced, hinterest]
      rfl
  | claimed s spec =>
      obtain ⟨hchoked, hintroduces⟩ := hp
      simp only [Phase.Follows, Work.Follows, hmessages, hchoking]
      refine ⟨hchoked, ?_, hintroduces⟩
      rw [Session.unannounced]
      split
      next => exact List.nil_suffix
      next => exact List.suffix_rfl
  | rested s wake =>
      rw [Option.toList_none, List.append_nil]
      exact hp
  | woke s wake =>
      rw [Option.toList_none, List.append_nil]
      exact hp
  | begun s spec a deadline =>
      obtain ⟨hchoked, -, hintroduces⟩ := hp
      rw [Option.toList_none, List.append_nil]
      refine ⟨hchoked, rfl, ?_⟩
      simpa using hintroduces
  | waited s hwork hwork' =>
      rw [Phase.follows_iff_of_isExchange hwork] at hp
      rw [Option.toList_none, List.append_nil, Phase.follows_iff_of_isExchange hwork']
      exact hp
  | @obeyed s s' work work' m hwork hwork' hchoked hinterest =>
      rw [Phase.follows_iff_of_isExchange hwork] at hp
      obtain ⟨hbefore, hsent, hintroduces⟩ := hp
      rw [Phase.follows_iff_of_isExchange hwork', hmessages, hchoking, hchoked, hbefore, hinterest]
      refine ⟨?_, hsent, hintroduces⟩
      simp only [Option.bind_some, Deed.choking?]
      cases m.choking? <;> rfl
  | passed held deadline writing hverify =>
      obtain ⟨hchoked, hsent, hintroduces⟩ := hp
      simp only [Phase.Follows, Work.Follows, hmessages, hchoking]
      exact ⟨hchoked, hsent, hintroduces, done, _, rfl, hverify⟩
  | wrote s spec writing writing' =>
      rw [Option.toList_none, List.append_nil]
      exact hp
  | stored s spec =>
      obtain ⟨hchoked, hsent, hintroduces, front, data, hdone, hverify⟩ := hp
      simp only [Phase.Follows, Work.Follows, hmessages, hchoking]
      refine ⟨hchoked, hsent, hintroduces, front, spec, data, ?_, rfl, hverify⟩
      rw [hdone, List.append_assoc]
      rfl
  | ended hover hquiet =>
      refine Phase.follows_of_isOver hover ?_
      rw [hmessages]
      exact hp.introduces

/-- A task that wrote a message has the right deeds behind it. -/
theorem Utters.follows {m : Message} (h : Utters p m p') (hp : p.Follows done) :
    p'.Follows (done ++ [.writes m]) := by
  have hmessages : Deed.messages (done ++ [.writes m]) = Deed.messages done ++ [m] :=
    Deed.messages_concat done (some (.writes m))
  have hchoking : Deed.lastChoking? (done ++ [.writes m]) = Deed.lastChoking? done :=
    Deed.lastChoking?_concat done (some (.writes m))
  cases h with
  | announced s spec m rest =>
      obtain ⟨hchoked, hleft, hintroduces⟩ := hp
      simp only [Phase.Follows, Work.Follows, hmessages, hchoking]
      refine ⟨hchoked, (List.suffix_cons m rest).trans hleft, ?_⟩
      rw [List.append_assoc]
      exact hintroduces
  | asked held deadline hnext =>
      obtain ⟨hchoked, hsent, hintroduces⟩ := hp
      simp only [Phase.Follows, Work.Follows, hmessages, hchoking]
      exact ⟨hchoked, hsent, hintroduces.concat (.inl rfl)⟩
  | answered s a r block deadline =>
      obtain ⟨hchoked, hsent, hintroduces⟩ := hp
      simp only [Phase.Follows, Work.Follows, hmessages, hchoking]
      exact ⟨hchoked, hsent, hintroduces.concat (.inr (.inl rfl))⟩
  | told s i =>
      obtain ⟨hchoked, hsent, hintroduces, -⟩ := hp
      simp only [Phase.Follows, Work.Follows, hmessages, hchoking]
      rw [Session.unannounced, if_pos hsent, List.append_nil]
      exact ⟨hchoked, hintroduces.concat (.inr (.inr rfl))⟩

end

/-! ## The bytes of a task -/

/-- A greeting and the frames of messages. -/
def wire (hello : Bytes) (ms : List Message) : Bytes := hello ++ ms.flatMap Frame.encode

/-- Whether a task may have more to say, with its greeting out. -/
def Phase.isTalking : Phase → Bool
  | .dialing _ | .gone _ _ | .inSession _ (.leaving _) => false
  | .greeting _ _ | .opening _ _ _ _ | .inSession _ _ => true

theorem Phase.isTalking_of_isGreeted {p : Phase} (h : p.isGreeted = true) :
    p.isTalking = true := by
  cases p with
  | greeting held deadline => rfl
  | opening remoteId greeted held deadline => rfl
  | _ => cases h

theorem Phase.isTalking_of_isOver {p : Phase} (h : p.isOver = true) : p.isTalking = false := by
  cases p with
  | gone result joined => rfl
  | inSession s work =>
      cases work with
      | leaving d => rfl
      | _ => cases h
  | _ => cases h

theorem Phase.isTalking_of_isExchange {s : Session} {work : Work} (h : work.isExchange = true) :
    (Phase.inSession s work).isTalking = true := by
  cases work with
  | fetching a held deadline => rfl
  | serving a q reading deadline => rfl
  | _ => cases h

/-- All messages but the last went out whole, and of the last a part or all. -/
def Sent (hello : Bytes) (ms : List Message) (sent : Bytes) : Prop :=
  sent <+: wire hello ms ∧ (ms = [] ∨ wire hello ms.dropLast <+: sent)

/-- A task with its deeds behind it: they suit its phase, and their messages went out. -/
structure Task.Traced (hello : Bytes) (done : List Deed) (t : Task) : Prop where
  follows : t.phase.Follows done
  dialing : ∀ deadline, t.phase = .dialing deadline → t.sent = []
  talking : t.phase.isTalking = true → t.sent = wire hello (Deed.messages done)
  sent : Sent hello (Deed.messages done) t.sent

section

variable {hello : Bytes} {done : List Deed} {deed : Option Deed} {t t' : Task} {m : Message}
  {p p' : Phase}

theorem wire_nil (hello : Bytes) : wire hello [] = hello := List.append_nil hello

theorem wire_concat (hello : Bytes) (ms : List Message) (m : Message) :
    wire hello (ms ++ [m]) = wire hello ms ++ Frame.encode m := by
  simp only [wire, List.flatMap_append, List.flatMap_singleton, List.append_assoc]

theorem sent_wire (hello : Bytes) (ms : List Message) : Sent hello ms (wire hello ms) := by
  refine ⟨List.prefix_rfl, .inr ?_⟩
  rcases List.eq_nil_or_concat' ms with rfl | ⟨front, m, rfl⟩
  · exact List.prefix_rfl
  · rw [List.dropLast_concat, wire_concat]
    exact List.prefix_append _ _

/-- A message of which a part went out. -/
theorem sent_take (hello : Bytes) (ms : List Message) (m : Message) (n : Nat) :
    Sent hello (ms ++ [m]) (wire hello ms ++ (Frame.encode m).take n) := by
  refine ⟨?_, .inr ?_⟩
  · rw [wire_concat, List.prefix_append_right_inj]
    exact List.take_prefix n _
  · rw [List.dropLast_concat]
    exact List.prefix_append _ _

theorem Conduct.of_dialing {deadline : Nat} (h : Conduct p deed (.dialing deadline)) :
    p = .dialing deadline := by
  cases h with
  | stay => rfl
  | greeted hp hp' => cases hp'
  | ended hp' => cases hp'

/-- No task begins to talk by keeping quiet. -/
theorem Conduct.isTalking (h : Conduct p deed p') (hp' : p'.isTalking = true) :
    p.isTalking = true := by
  cases h with
  | stay => exact hp'
  | greeted hp => exact Phase.isTalking_of_isGreeted hp
  | opened hp => exact Phase.isTalking_of_isGreeted hp
  | waited s hwork => exact Phase.isTalking_of_isExchange hwork
  | obeyed hwork => exact Phase.isTalking_of_isExchange hwork
  | ended hover =>
      rw [Phase.isTalking_of_isOver hover] at hp'
      cases hp'
  | _ => rfl

theorem Utters.isTalking (h : Utters p m p') : p.isTalking = true := by
  cases h with
  | _ => rfl

/-- A task that is to tell of a piece has just had it stored. -/
theorem Conduct.of_telling {s : Session} {i : PieceIndex}
    (h : Conduct p deed (.inSession s (.telling i))) :
    p = .inSession s (.telling i) ∧ deed = none ∨
      ∃ spec, p = .inSession s (.storing spec (.finished (.ok ()))) ∧ spec.index = i ∧
        deed = some (.stores i) := by
  cases h with
  | stay => exact .inl ⟨rfl, rfl⟩
  | stored s spec => exact .inr ⟨spec, rfl, rfl, rfl⟩
  | greeted hp hp' => cases hp'
  | waited s hwork hwork' => cases hwork'
  | obeyed hwork hwork' => cases hwork'
  | ended hover => cases hover

theorem Utters.ne_dialing (h : Utters p m p') (deadline : Nat) : p' ≠ .dialing deadline := by
  cases h with
  | _ => nofun

theorem Utters.ne_telling (h : Utters p m p') (s : Session) (i : PieceIndex) :
    p' ≠ .inSession s (.telling i) := by
  cases h with
  | _ => nofun

/-- Nothing lies behind a task that has not reached its peer. -/
theorem Task.Traced.of_dialing (h : t.Traced hello done) {deadline : Nat}
    (hp : t.phase = .dialing deadline) : done = [] ∧ t.sent = [] := by
  have hfollows := h.follows
  rw [hp] at hfollows
  exact ⟨hfollows, h.dialing deadline hp⟩

/-- A task keeps its deeds behind it, and their messages in what it sent. -/
theorem Task.Does.traced (h : t.Does hello deed t') (ht : t.Traced hello done) :
    t'.Traced hello (done ++ deed.toList) := by
  cases h with
  | quiet hsent hconduct =>
      have hmessages := Deed.messages_concat done deed
      rw [hconduct.written?_eq_none, Option.toList_none, List.append_nil] at hmessages
      refine ⟨hconduct.follows ht.follows, fun deadline hp' => ?_, fun hp' => ?_, ?_⟩
      · rw [hp'] at hconduct
        rw [hsent]
        exact ht.dialing deadline hconduct.of_dialing
      · rw [hsent, hmessages]
        exact ht.talking (hconduct.isTalking hp')
      · rw [hsent, hmessages]
        exact ht.sent
  | @said m _ hsent hutters =>
      have hmessages := Deed.messages_concat done (some (.writes m))
      have hwire : t'.sent = wire hello (Deed.messages (done ++ [.writes m])) := by
        rw [hsent, ht.talking hutters.isTalking]
        exact (wire_concat _ _ m).symm.trans (congrArg _ hmessages.symm)
      refine ⟨hutters.follows ht.follows, fun deadline hp' => ?_, fun _ => hwire, ?_⟩
      · exact absurd hp' (hutters.ne_dialing deadline)
      · rw [hwire]
        exact sent_wire _ _
  | @broken m _ p n hsent hutters hover =>
      have hmessages : Deed.messages (done ++ [.writes m]) = Deed.messages done ++ [m] :=
        Deed.messages_concat done (some (.writes m))
      refine ⟨?_, fun deadline hp' => ?_, fun hp' => ?_, ?_⟩
      · exact Phase.follows_of_isOver hover (hutters.follows ht.follows).introduces
      · rw [hp'] at hover
        cases hover
      · rw [Phase.isTalking_of_isOver hover] at hp'
        cases hp'
      · rw [hsent, ht.talking hutters.isTalking]
        show Sent hello (Deed.messages (done ++ [.writes m])) _
        rw [hmessages]
        exact sent_take _ _ m n
  | hailed hp hsent hp' =>
      obtain ⟨rfl, hnone⟩ := ht.of_dialing hp
      rw [hnone, List.nil_append] at hsent
      have hwire : t'.sent = wire hello [] := hsent.trans (wire_nil hello).symm
      refine ⟨(Phase.follows_iff_of_isGreeted hp').2 rfl, fun deadline hdialing => ?_,
        fun _ => hwire, ?_⟩
      · rw [hdialing] at hp'
        cases hp'
      · rw [hwire]
        exact sent_wire hello []
  | unhailed n hp hsent hover =>
      obtain ⟨rfl, hnone⟩ := ht.of_dialing hp
      rw [hnone, List.nil_append] at hsent
      refine ⟨Phase.follows_of_isOver hover ht.follows.introduces, fun deadline hp' => ?_,
        fun hp' => ?_, ?_, .inl rfl⟩
      · rw [hp'] at hover
        cases hover
      · rw [Phase.isTalking_of_isOver hover] at hp'
        cases hp'
      · rw [hsent]
        show _ <+: wire hello []
        rw [wire_nil]
        exact List.take_prefix n hello

end

/-! ## Requests and news -/

section

variable {p p' : Phase} {done : List Deed}

theorem Message.request_inj {i j : PieceIndex} {first first' length length' : UInt32}
    (h : request i first length = request j first' length') :
    i = j ∧ first = first' ∧ length = length' := by
  have hread := blockRequest_request ⟨i, first, length⟩
  rw [h, blockRequest_request ⟨j, first', length'⟩] at hread
  cases hread
  exact ⟨rfl, rfl, rfl⟩

/-- A request is written by a task that fetches, where it may ask. -/
theorem Utters.of_request {i : PieceIndex} {first length : UInt32}
    (h : Utters p (.request i first length) p') (hp : p.Follows done) :
    ∃ s a held deadline, p = .inSession s (.fetching a held deadline) ∧
      a.nextRequest? s = some ⟨i, first, length⟩ := by
  generalize hm : Message.request i first length = m at h
  cases h with
  | announced s spec m rest =>
      -- what is left of the introduction asks for nothing
      have hmem := hp.2.1.mem (List.mem_cons_self (a := m))
      rw [← hm] at hmem
      simp [Message.request, Message.unchoke, Message.interested] at hmem
  | @asked s a r held deadline hnext =>
      obtain ⟨rfl, rfl, rfl⟩ := Message.request_inj hm
      exact ⟨s, a, held, deadline, rfl, hnext⟩
  | answered => cases congrArg Message.kind hm
  | told => cases congrArg Message.kind hm

/-- A task looks at the digest of the piece that it holds. -/
theorem Task.claim?_of_checks {t : Task} {limit : UInt32} {spec : PieceSpec} {data : Bytes}
    (h : t.deed? limit = some (.checks spec data)) : t.phase.claim? = some spec := by
  simp only [deed?] at h
  split at h
  case h_2 hp =>
    split at h
    next =>
      cases h
      rw [hp]
      rfl
    next =>
      split at h
      next => cases h
      next => split at h <;> cases h
  all_goals cases h

/-- News of a piece are written by a task that is to tell of it. -/
theorem Utters.of_have {i : PieceIndex} (h : Utters p (.have_ i) p') (hp : p.Follows done) :
    ∃ s, p = .inSession s (.telling i) := by
  generalize hm : Message.have_ i = m at h
  cases h with
  | announced s spec m rest =>
      have hmem := hp.2.1.mem (List.mem_cons_self (a := m))
      rw [← hm] at hmem
      simp [Message.have_, Message.unchoke, Message.interested] at hmem
  | asked => cases congrArg Message.kind hm
  | answered => cases congrArg Message.kind hm
  | told s j =>
      obtain rfl := Message.have_inj.1 hm
      exact ⟨s, rfl⟩

end

theorem Move.hello_eq {r : PeerRecord} {fault : Option Fault} {w w' : Shared} {p p' : Phase}
    (h : Move r fault w p w' p') : w'.hello = w.hello := by
  cases h <;> rfl

namespace Swarm

variable {d : Descriptor} {pieces : List PieceSpec} {w w' : Swarm} {e : Event} {k : Nat}
  {done : List Deed} {hello : Bytes}

/-- No change touches the greeting. -/
theorem Change.hello_eq (h : Change w e w') : w'.hello = w.hello := by
  cases h with
  | moved he ht hfatal hrecord hmove => exact hmove.hello_eq
  | @stopped k t t' ht => cases t.phase.claim? <;> rfl
  | _ => rfl

theorem exists_task_of_deed? {x : Deed} (h : w.deed? k e = some x) :
    ∃ t, w.tasks[k]? = some t ∧ t.deed? w.settings.maxMessageLength = some x := by
  cases e with
  | proceeded j now fault =>
      rw [deed?] at h
      split at h
      next => exact Option.bind_eq_some_iff.1 h
      next => cases h
  | _ => cases h

/-- A message is written by a task that may write it. -/
theorem exists_utters {m : Message} (h : w.deed? k e = some (.writes m)) :
    ∃ t p, w.tasks[k]? = some t ∧ Utters t.phase m p := by
  obtain ⟨t, ht, -⟩ := exists_task_of_deed? h
  obtain ⟨t', ht', -⟩ := (change_step w e).task ht
  obtain ⟨u, hu, hdoes⟩ := does_step e ht'
  rw [ht] at hu
  cases hu
  rw [h] at hdoes
  cases hdoes with
  | quiet hsent hconduct => cases hconduct.written?_eq_none
  | said hsent hutters => exact ⟨t, _, ht, hutters⟩
  | broken n hsent hutters hover => exact ⟨t, _, ht, hutters⟩

/-- A piece that a task completes is not outstanding any more. -/
theorem Ledger.not_outstanding_of_completed
    (hpieces : ∀ spec ∈ pieces, spec.index.toNat < d.pieceCount) (h : w.Ledger d pieces)
    (hchange : Change w e w') {t t' : Task} {s s' : Session} {spec : PieceSpec} {i : PieceIndex}
    (ht : w.tasks[k]? = some t) (ht' : w'.tasks[k]? = some t')
    (hphase : t.phase = .inSession s (.storing spec (.finished (.ok ()))))
    (hphase' : t'.phase = .inSession s' (.telling i)) :
    spec.index ∉ w'.outstanding.map PieceSpec.index := by
  -- The number of complete pieces grew, so a piece went off the books, and no other task moved.
  have hcompleted : w'.completed = w.completed + 1 := by
    obtain ⟨u, hu, -, hfate⟩ := hchange.fate ht'
    rw [ht] at hu
    cases hu
    cases hfate with
    | rested hsame =>
        rw [hphase, hphase'] at hsame
        cases hsame
    | stopped hfatal hstopped =>
        rw [hphase'] at hstopped
        cases hstopped
    | joined hended =>
        rw [hphase] at hended
        cases hended
    | moved he hfatal hmove =>
        rw [hphase, hphase'] at hmove
        generalize w'.toShared = shared at hmove ⊢
        cases hmove with
        | completed => rfl
        | reach hp => cases hp
        | pursued hspec => cases hspec
  rcases hchange.turn h.tracked fun u hu x hx =>
    h.bound hpieces (claim_mem_outstanding hu hx) with
      rfl | ⟨j, u, u', hturn, -⟩ | ⟨fault, rfl⟩
  · exact absurd hcompleted (Nat.ne_of_lt (Nat.lt_succ_self _))
  · rcases hturn.outstanding_perm with ⟨-, hsame⟩ | ⟨s₁, x, hstored, hperm, -⟩
    · rw [hcompleted] at hsame
      exact absurd hsame.symm (Nat.ne_of_lt (Nat.lt_succ_self _))
    · have hafter := hturn.after ▸ ht'
      rcases getElem?_set_cases hafter with ⟨rfl, rfl⟩ | ⟨-, hsame⟩
      · have hbefore := hturn.before
        rw [ht] at hbefore
        cases hbefore
        rw [hphase] at hstored
        cases hstored
        exact (List.nodup_cons.1 ((hperm.map _).nodup_iff.1 h.distinct)).1
      · rw [ht] at hsame
        cases hsame
        rw [hphase] at hphase'
        cases hphase'
  · exact absurd hcompleted (Nat.ne_of_lt (Nat.lt_succ_self _))

/-- A download in which one task has these deeds behind it.  A piece that the peer of the task was
told of, or is to be told of, is not outstanding. -/
structure Recounts (d : Descriptor) (pieces : List PieceSpec) (hello : Bytes) (k : Nat)
    (done : List Deed) (w : Swarm) : Prop where
  ledger : w.Ledger d pieces
  hello_eq : w.hello = hello
  traced : ∀ t, w.tasks[k]? = some t → t.Traced hello done
  checked : ∀ spec data, .checks spec data ∈ done → spec ∈ pieces
  told : ∀ i, .have_ i ∈ Deed.messages done → i ∉ w.outstanding.map PieceSpec.index
  telling : ∀ t s i, w.tasks[k]? = some t → t.phase = .inSession s (.telling i) →
    i ∉ w.outstanding.map PieceSpec.index ∧ .have_ i ∉ Deed.messages done

/-- A step adds its deed to what lies behind the task. -/
theorem Recounts.step (hpieces : ∀ spec ∈ pieces, spec.index.toNat < d.pieceCount)
    (h : w.Recounts d pieces hello k done) (e : Event) :
    (w.step e).Recounts d pieces hello k (done ++ (w.deed? k e).toList) := by
  have hchange := change_step w e
  have hgone : ∀ i, i ∉ w.outstanding.map PieceSpec.index →
      i ∉ (w.step e).outstanding.map PieceSpec.index := by
    intro i hi hmem
    obtain ⟨spec, hspec, rfl⟩ := List.mem_map.1 hmem
    exact hi (List.mem_map_of_mem (h.ledger.outstanding_change hpieces hchange hspec))
  refine ⟨h.ledger.change hpieces hchange, hchange.hello_eq.trans h.hello_eq, ?_, ?_, ?_, ?_⟩
  · intro t' ht'
    obtain ⟨t, ht, hdoes⟩ := does_step e ht'
    rw [h.hello_eq] at hdoes
    exact hdoes.traced (h.traced t ht)
  · intro spec data hmem
    rcases List.mem_append.1 hmem with hmem | hmem
    · exact h.checked spec data hmem
    · obtain ⟨t, ht, hdeed⟩ := exists_task_of_deed? (Option.mem_toList.1 hmem)
      have hclaim := Task.claim?_of_checks hdeed
      exact h.ledger.known_of_claim (List.mem_of_getElem? ht) hclaim
  · intro i hi
    rw [Deed.messages_concat] at hi
    rcases List.mem_append.1 hi with hi | hi
    · exact hgone i (h.told i hi)
    · obtain ⟨x, hx, hwritten⟩ := Option.bind_eq_some_iff.1 (Option.mem_toList.1 hi)
      rw [Deed.eq_writes_of_written? hwritten] at hx
      obtain ⟨t, p, ht, hutters⟩ := exists_utters hx
      obtain ⟨s, hphase⟩ := hutters.of_have (h.traced t ht).follows
      exact hgone i (h.telling t s i ht hphase).1
  · intro t' s i ht' hphase'
    obtain ⟨t, ht, hdoes⟩ := does_step e ht'
    rw [Deed.messages_concat]
    generalize w.deed? k e = deed at hdoes ⊢
    cases hdoes with
    | quiet hsent hconduct =>
        rw [hconduct.written?_eq_none, Option.toList_none, List.append_nil]
        rw [hphase'] at hconduct
        rcases hconduct.of_telling with ⟨hphase, -⟩ | ⟨spec, hphase, rfl, -⟩
        · exact ⟨hgone i (h.telling t s i ht hphase).1, (h.telling t s i ht hphase).2⟩
        · -- The piece was outstanding until now, so nobody was told of it before.
          have hclaim : t.phase.claim? = some spec := by
            rw [hphase]
            rfl
          have hout := Ledger.claim_mem_outstanding (List.mem_of_getElem? ht) hclaim
          refine ⟨?_, fun hnews => h.told _ hnews (List.mem_map_of_mem hout)⟩
          exact h.ledger.not_outstanding_of_completed hpieces hchange ht ht' hphase hphase'
    | said hsent hutters => exact absurd hphase' (hutters.ne_telling s i)
    | broken n hsent hutters hover =>
        rw [hphase'] at hover
        cases hover
    | hailed hp hsent hgreeted =>
        rw [hphase'] at hgreeted
        cases hgreeted
    | unhailed n hp hsent hover =>
        rw [hphase'] at hover
        cases hover

theorem hello_begin (w : Swarm) (now : Nat) (fault : Option Fault) :
    (w.begin_ now fault).hello = w.hello := by
  simp only [begin_]
  split
  next =>
    cases fault with
    | none => rfl
    | some fault => rfl
  next => split <;> rfl

/-- Every run keeps its record. -/
theorem recounts_run {s : Store} (hsize : s.completed.bytes.length = byteLength d.pieceCount)
    (tree : FileTree) (peers : PeerSet) (settings : Settings) (localId : PeerId) (now : Nat)
    (fault : Option Fault) (k : Nat) (events : List Event) :
    let start := (seed d s tree peers settings localId).begin_ now fault
    (start.run events).Recounts d (missing d s) (Handshake.ours d.infoHash localId).encode k
      (start.deeds k events) := by
  intro start
  have hpieces : ∀ spec ∈ missing d s, spec.index.toNat < d.pieceCount :=
    fun spec hspec => index_lt_of_mem_missing hspec
  induction events using List.reverseRecOn with
  | nil =>
      refine ⟨ledger_begin hsize tree peers settings localId now fault,
        hello_begin (seed d s tree peers settings localId) now fault, ?_, nofun, nofun, ?_⟩
      · intro t ht
        obtain ⟨r, deadline, rfl⟩ := mem_tasks_begin rfl (List.mem_of_getElem? ht)
        exact ⟨rfl, fun _ _ => rfl, nofun, List.nil_prefix, .inl rfl⟩
      · intro t session i ht hphase
        obtain ⟨r, deadline, rfl⟩ := mem_tasks_begin rfl (List.mem_of_getElem? ht)
        cases hphase
  | append_singleton events e ih =>
      rw [run_concat, deeds_concat]
      exact ih.step hpieces e

/-- What a session writes, whatever the peers send, the files do and the other tasks are at.  The
bytes are our greeting of 68 bytes and the frames of the messages that the task set out to write, of
which the last one may be cut off.  The messages are the introduction, and then requests, blocks and
news only.  A request lies in the piece that the task holds, which was missing in the beginning, and
the last message of the peer about it has let us ask.  The peer is told of a piece at most once,
after its content was found to have the digest and was stored. -/
theorem session_written {s : Store} {tree tree' : FileTree} {root name : List Char}
    (hopen : Store.open_ tree root d name = (.ok s, tree')) (peers : PeerSet)
    (settings : Settings) (localId : PeerId) (now : Nat) (fault : Option Fault)
    (events : List Event) {t : Task}
    (ht : (((seed d s tree' peers settings localId).begin_ now fault).run events).tasks[k]? =
      some t) :
    let start := (seed d s tree' peers settings localId).begin_ now fault
    let w := start.run events
    let done := start.deeds k events
    let ms := Deed.messages done
    let hello := (Handshake.ours d.infoHash localId).encode
    (hello.length = 68 ∧ t.sent <+: wire hello ms ∧
      (ms = [] ∨ wire hello ms.dropLast <+: t.sent)) ∧
    (ms <+: [.unchoke, .interested] ∨ Introduces ms) ∧
    (∀ e i first length, w.deed? k e = some (.writes (.request i first length)) →
      s.hasPiece i = false ∧ Deed.lastChoking? done = some false ∧
      ∃ spec, t.claim? = some spec ∧ spec.index = i ∧ d.piece? i = some spec ∧
        first.toNat + length.toNat ≤ spec.length.toNat) ∧
    ∀ e i, w.deed? k e = some (.writes (.have_ i)) → .have_ i ∉ ms ∧
      ∃ front spec data, done = front ++ [.checks spec data, .stores i] ∧
        d.piece? i = some spec ∧ spec.verify data = true := by
  intro start w done ms hello
  have hrecounts : w.Recounts d (missing d s) hello k done :=
    recounts_run (Store.size_open hopen) tree' peers settings localId now fault k events
  have htraced := hrecounts.traced t ht
  have hwriter : ∀ e m, w.deed? k e = some (.writes m) → ∃ p, Utters t.phase m p := by
    intro e m hdeed
    obtain ⟨u, p, hu, hutters⟩ := exists_utters hdeed
    rw [ht] at hu
    cases hu
    exact ⟨p, hutters⟩
  refine ⟨⟨Handshake.length_encode _, htraced.sent⟩, ?_, ?_, ?_⟩
  · obtain ⟨left, hintroduces⟩ := htraced.follows.introduces
    exact hintroduces.of_append
  · intro e i first length hdeed
    obtain ⟨p, hutters⟩ := hwriter e _ hdeed
    obtain ⟨session, a, held, deadline, hphase, hnext⟩ := hutters.of_request htraced.follows
    have hclaim : t.phase.claim? = some a.spec := by
      rw [hphase]
      rfl
    obtain ⟨-, hbit, hpiece⟩ := mem_missing.1
      (hrecounts.ledger.known_of_claim (List.mem_of_getElem? ht) hclaim)
    obtain ⟨hleft, -, hindex, hstart, hlength⟩ := Attempt.nextRequest?_eq_some hnext
    obtain rfl : i = a.spec.index := hindex
    obtain rfl : first = a.requested := hstart
    refine ⟨hbit, ?_, a.spec, t.claim?_eq.trans hclaim, rfl, hpiece, ?_⟩
    · have hfollows := htraced.follows
      rw [hphase] at hfollows
      have hchoked := hfollows.1
      rw [Attempt.choked_of_nextRequest?_eq_some hnext] at hchoked
      cases hlast : Deed.lastChoking? done with
      | none =>
          rw [hlast] at hchoked
          cases hchoked
      | some b =>
          rw [hlast] at hchoked
          exact congrArg some hchoked.symm
    · have hshort : length.toNat =
          min a.blockSize.toNat (a.spec.length.toNat - a.requested.toNat) := hlength
      omega
  · intro e i hdeed
    obtain ⟨p, hutters⟩ := hwriter e _ hdeed
    obtain ⟨session, hphase⟩ := hutters.of_have htraced.follows
    have hfollows := htraced.follows
    rw [hphase] at hfollows
    obtain ⟨-, -, -, front, spec, data, hdone, rfl, hverify⟩ := hfollows
    have hchecked : .checks spec data ∈ done := by
      rw [hdone]
      simp
    obtain ⟨-, -, hpiece⟩ := mem_missing.1 (hrecounts.checked spec data hchecked)
    exact ⟨(hrecounts.telling t session _ ht hphase).2, front, spec, data, hdone, hpiece, hverify⟩

/-- The only piece has come and was stored, and the peer is to be told. -/
theorem session_written_one_piece :
    let d : Descriptor := ⟨⟨.zero 20⟩, 1, 1, [Sha1.digest [97]], [⟨"a", 1⟩]⟩
    let hello := (Handshake.ours ⟨.zero 20⟩ ⟨.zero 20⟩).encode
    let heard := hello ++ Frame.encode (.bitfield [0x80]) ++ Frame.encode .unchoke ++
      Frame.encode (.piece 0 0 [97])
    let events : List Event :=
      [.reached 0 0 none, .arrived 0 heard] ++ List.replicate 17 (.proceeded 0 0 none)
    ∃ s tree, Store.open_ (.empty []) ['t'] d ['r'] = (.ok s, tree) ∧
      let start := (seed d s tree ⟨[⟨⟨.short ⟨127, 0, 0, 1⟩, 1⟩, none⟩]⟩ .standard
        ⟨.zero 20⟩).begin_ 0 none
      ∃ t, (start.run events).tasks[0]? = some t ∧
        t.sent = wire hello [.unchoke, .interested, .request 0 0 1] ∧
        .have_ 0 ∉ Deed.messages (start.deeds 0 events) ∧
        ∃ front spec data, start.deeds 0 events = front ++ [.checks spec data, .stores 0] ∧
          d.piece? 0 = some spec ∧ spec.verify data = true := by
  intro d hello heard events
  have hopen : Store.open_ (.empty []) ['t'] ⟨⟨.zero 20⟩, 1, 1, [Sha1.digest [97]], [⟨"a", 1⟩]⟩
    ['r'] = (.ok _, _) := rfl
  refine ⟨_, _, hopen, ?_⟩
  intro start
  obtain ⟨t, ht, -⟩ := task_run (w := start) (k := 0) rfl events
  have hrun : ((start.run events).tasks[0]?.map Task.sent,
      (start.run events).deed? 0 (.proceeded 0 0 none)) =
      (some (wire hello [.unchoke, .interested, .request 0 0 1]), some (.writes (.have_ 0))) := by
    decide +kernel
  obtain ⟨hsent, hdeed⟩ := Prod.mk.inj hrun
  rw [ht] at hsent
  refine ⟨t, ht, Option.some.inj hsent, ?_⟩
  exact (session_written hopen _ _ _ 0 none events ht).2.2.2 _ 0 hdeed

end Swarm

end Torrent
