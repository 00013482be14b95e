import Torrent.Proofs.Archive.Orderly
import Torrent.Proofs.Attempt.Requests
import Torrent.Proofs.Attempt.Serving
import Torrent.Proofs.Stream.Framing
import Torrent.Settings

/-!
# One end asks, the other serves

Two ends of our own fit together.  A `Dialogue` has an end that fetches a piece
and an end that serves it from its store.  The requests that went out are looked
up in any order, and the replies come in over the stream of the end that asked.

`Dialogue.InStep` is the invariant: the requests without a reply and the replies
on their way are what the attempt waits for.  Every act keeps it, so no request
is ever refused, and every reply that comes in leaves one block less to come
(`Dialogue.InStep.ask`, `Dialogue.InStep.answer`, `Dialogue.InStep.receive`).
A piece is there after as many turns as it has blocks (`Dialogue.piece_exchanged`).
-/

namespace Torrent

/-- A window that lets something out never closes. -/
theorem Session.window_recordBlock_pos {s : Session} (h : 0 < s.window.toNat) (bytes now : Nat) :
    0 < (s.recordBlock bytes now).window.toNat := by
  simp only [window, recordBlock, Throughput.record]
  split
  next => exact h
  next => exact Nat.lt_of_lt_of_le (by decide) (Throughput.leastWindow_le_windowFor _)

/-! ## Both ends of a request -/

theorem Frame.decode_encode_request (r : BlockRequest) :
    decode (encode (.request r.index r.start r.length)) =
      .ok (.request r.index r.start r.length) := by
  have hshort : (Message.request r.index r.start r.length).payload.length < UInt32.size - 1 :=
    show 12 < UInt32.size - 1 by decide
  have hdecode := decode_encode (.request r.index r.start r.length) [] hshort
  rwa [List.append_nil] at hdecode

namespace Connection

variable {c : Connection} {a : Attempt} {r : BlockRequest} {block : Bytes}

/-- The connection after more bytes went out. -/
def sending (c : Connection) (b : Bytes) : Connection :=
  { c with stream := { c.stream with sent := c.stream.sent ++ b } }

/-- The connection with more bytes to come in. -/
def receiving (c : Connection) (b : Bytes) : Connection :=
  { c with stream := c.stream.feed [.bytes b] c.stream.ending }

theorem incoming_receiving (c : Connection) (b : Bytes) :
    (c.receiving b).stream.incoming = c.stream.incoming ++ b := by
  simp only [receiving, Stream.feed, Stream.incoming]
  rw [List.flatMap_append, List.flatMap_singleton]

theorem takesAll_receiving (h : c.stream.TakesAll) (b : Bytes) :
    (c.receiving b).stream.TakesAll :=
  ⟨h.unshut, h.perWrite, h.capacity⟩

theorem takesAll_sending (h : c.stream.TakesAll) (b : Bytes) : (c.sending b).stream.TakesAll :=
  ⟨h.unshut, h.perWrite, h.capacity⟩

theorem send_of_takesAll (h : c.stream.TakesAll) (m : Message) :
    c.send m = (.ok (), c.sending (Frame.encode m)) := by
  have hwrite : c.stream.write (Frame.encode m) =
      (true, { c.stream with sent := c.stream.sent ++ Frame.encode m }) := by
    simp only [Stream.write, h.accepts_eq, List.take_length, Nat.le_refl, decide_true]
  rw [send, hwrite]
  rfl

/-- Where all that is written goes out, requests go out until none may, and nothing else happens. -/
theorem requestBlocks_of_takesAll (h : c.stream.TakesAll) (a : Attempt) (n : Nat) :
    c.requestBlocks a n =
      (.ok ((a.requests c.session n).foldl Attempt.afterRequest a),
        c.sending ((a.requests c.session n).flatMap fun r =>
          Frame.encode (.request r.index r.start r.length))) := by
  induction n generalizing c a with
  | zero =>
      rw [requestBlocks, Attempt.requests, List.flatMap_nil, sending, List.append_nil]
      rfl
  | succ n ih =>
      rw [requestBlocks, Attempt.requests]
      cases hnext : a.nextRequest? c.session with
      | none =>
          simp only [List.flatMap_nil, sending, List.append_nil, List.foldl_nil]
      | some r =>
          simp only [send_of_takesAll h, ih (takesAll_sending h _)]
          simp only [sending, List.foldl_cons, List.flatMap_cons, List.append_assoc]

/-- A message that asks for nothing has its effect and no more. -/
theorem handle_of_noRequest {a' : Attempt} {s' : Session} {m : Message} {serve : Serve}
    {stopwatch : Nat} (h : a.handle c.session stopwatch m = .ok (a', s', none)) :
    c.handle a serve stopwatch m = (.ok a', { c with session := s' }) := by
  rw [handle, h]
  rfl

/-- A request that is served gets its block in one piece frame, and nothing else happens. -/
theorem handle_served (h : c.stream.TakesAll) (a : Attempt) {serve : Serve} (stopwatch : Nat)
    (hlength : r.length ≤ Attempt.longestServed) (hserve : serve r = some block) :
    c.handle a serve stopwatch (.request r.index r.start r.length) =
      (.ok a, c.sending (Frame.encode (.piece r.index r.start block))) := by
  rcases handle_request c a serve stopwatch (m := .request r.index r.start r.length) rfl with
    ⟨cause, hrequest, -⟩ | ⟨r', hrequest, ⟨hnot, -⟩ | ⟨-, block', hserve', hafter, hok⟩⟩
  · rw [Message.blockRequest_request] at hrequest
    cases hrequest
  · rw [Message.blockRequest_request] at hrequest
    cases hrequest
    rcases hnot with hlong | hnone
    · exact absurd hlength (UInt32.not_le.2 hlong)
    · rw [hserve] at hnone
      cases hnone
  · rw [Message.blockRequest_request] at hrequest
    cases hrequest
    rw [hserve] at hserve'
    cases hserve'
    rw [send_of_takesAll h] at hafter hok
    exact Prod.ext (hok.2 rfl) hafter

end Connection

/-! ## A dialogue -/

/-- An end that fetches a piece, and an end that serves it. -/
structure Dialogue where
  asking : Connection
  attempt : Attempt
  serving : Connection
  /-- What the serving end itself is fetching. -/
  theirs : Attempt
  store : Store
  tree : FileTree
  /-- The requests that went out and were not looked up yet. -/
  unserved : List BlockRequest
  /-- The requests whose replies are on their way. -/
  coming : List BlockRequest

namespace Dialogue

/-- What happens in a dialogue. -/
inductive Act
  /-- All requests go out that may. -/
  | ask
  /-- One of the requests that went out is served. -/
  | answer (pick stopwatch : Nat)
  /-- The reply in front is read and obeyed. -/
  | receive (moment : Moment)

/-- The requests that may go out now. -/
def requests (x : Dialogue) : List BlockRequest :=
  { x.attempt with state := .requesting }.requests x.asking.session x.attempt.spec.length.toNat

def ask (x : Dialogue) : Dialogue :=
  match x.asking.requestBlocks { x.attempt with state := .requesting }
    x.attempt.spec.length.toNat with
  | (.error _, c) => { x with asking := c }
  | (.ok a, c) => { x with asking := c, attempt := a, unserved := x.unserved ++ x.requests }

/-- A request is written and read back, the serving end handles it, and what that end wrote comes in
at the other one. -/
def answer (x : Dialogue) (pick stopwatch : Nat) : Dialogue :=
  match x.unserved[pick % x.unserved.length]? with
  | none => x
  | some r =>
    match Frame.decode (Frame.encode (.request r.index r.start r.length)) with
    | .error _ => x
    | .ok m =>
      match x.serving.handle x.theirs (x.store.serve x.tree) stopwatch m with
      | (.error _, c) => { x with serving := c }
      | (.ok a, c) =>
        let (_, store, tree) := x.store.readBlock x.tree r.index r.start.toNat r.length.toNat
        { x with
          asking := x.asking.receiving (c.stream.sent.drop x.serving.stream.sent.length)
          serving := c
          theirs := a
          store := store
          tree := tree
          unserved := x.unserved.eraseIdx (pick % x.unserved.length)
          coming := x.coming ++ [r] }

/-- The end that asked waits while no reply is on its way. -/
def receive (x : Dialogue) (moment : Moment) : Dialogue :=
  match x.coming with
  | [] => x
  | _ :: rest =>
    match x.asking.read none with
    | (.ok m, c) =>
      match c.handle x.attempt moment.serve moment.stopwatch m with
      | (.error _, c) => { x with asking := c }
      | (.ok a, c) => { x with asking := c, attempt := a, coming := rest }
    | (_, c) => { x with asking := c }

def act (x : Dialogue) : Act → Dialogue
  | .ask => x.ask
  | .answer pick stopwatch => x.answer pick stopwatch
  | .receive moment => x.receive moment

def run (x : Dialogue) (acts : List Act) : Dialogue := acts.foldl act x

theorem run_append (x : Dialogue) (front back : List Act) :
    x.run (front ++ back) = (x.run front).run back := List.foldl_append

/-- Requests served and their replies received, one at a time. -/
def exchange (picks : List (Nat × Nat × Moment)) : List Act :=
  picks.flatMap fun (pick, stopwatch, moment) => [.answer pick stopwatch, .receive moment]

/-- A turn of the end that asks: requests go out, and then replies come in. -/
def turn (picks : List (Nat × Nat × Moment)) : List Act := .ask :: exchange picks

/-- The blocks that are still to come. -/
def left (x : Dialogue) : Nat := x.attempt.blocksLeft (x.unserved ++ x.coming).length

/-- Both ends are where they should be: the requests without a reply and the replies on their way
are what the attempt waits for, and the serving end has the piece. -/
structure InStep (spec : PieceSpec) (data : Bytes) (x : Dialogue) : Prop where
  awaits : x.attempt.Awaits spec data (x.unserved ++ x.coming)
  unchoked : x.asking.session.choked = false
  window_pos : 0 < x.asking.session.window.toNat
  takesAll : x.asking.stream.TakesAll
  limit : 9 + Attempt.longestServed.toNat ≤ x.asking.limit.toNat
  incoming : x.asking.stream.incoming = x.coming.flatMap fun r => Frame.encode (r.reply data)
  servingTakesAll : x.serving.stream.TakesAll
  handles : x.store.Handles x.tree
  complete : x.store.hasPiece spec.index = true
  lies : x.store.Lies x.tree spec.index data []

namespace InStep

variable {spec : PieceSpec} {data : Bytes} {x : Dialogue} {r : BlockRequest}

/-- Asking sends the requests that may go out. -/
theorem ask_eq (h : x.InStep spec data) :
    x.ask = { x with
      asking := x.asking.sending (x.requests.flatMap fun r =>
        Frame.encode (.request r.index r.start r.length))
      attempt := x.requests.foldl Attempt.afterRequest { x.attempt with state := .requesting }
      unserved := x.unserved ++ x.requests } := by
  simp only [Dialogue.ask, Connection.requestBlocks_of_takesAll h.takesAll]
  rfl

theorem ask (h : x.InStep spec data) : x.ask.InStep spec data ∧ x.ask.left = x.left := by
  obtain ⟨hawaits, hleft⟩ := (h.awaits.withState .requesting).requests x.asking.session
    x.attempt.spec.length.toNat
  have hperm : ((x.unserved ++ x.coming) ++ x.requests).Perm
      ((x.unserved ++ x.requests) ++ x.coming) := by
    rw [List.append_assoc, List.append_assoc]
    exact List.perm_append_comm.append_left x.unserved
  rw [h.ask_eq]
  refine ⟨⟨hawaits.perm hperm, h.unchoked, h.window_pos, ?_, h.limit, h.incoming,
    h.servingTakesAll, h.handles, h.complete, h.lies⟩, ?_⟩
  · exact Connection.takesAll_sending h.takesAll _
  · exact (congrArg _ hperm.length_eq.symm).trans hleft

/-- What a request that waits is for can be read. -/
theorem reads (h : x.InStep spec data) (hr : r ∈ x.unserved ++ x.coming) :
    ∃ store, x.store.readBlock x.tree r.index r.start.toNat r.length.toNat =
      (some (r.block data), store, x.tree) := by
  obtain ⟨hindex, hpos, -, hend⟩ := h.awaits.stretch r hr
  have hle := h.awaits.requested_le
  have hdata := h.awaits.data_length
  rw [hindex]
  exact Store.readBlock_of_lies h.handles h.complete h.lies hpos (by omega)

/-- Any end that serves from the store answers a request that waits with its reply. -/
theorem served (h : x.InStep spec data) (hr : r ∈ x.unserved ++ x.coming) {c : Connection}
    (hc : c.stream.TakesAll) (a : Attempt) (stopwatch : Nat) :
    c.handle a (x.store.serve x.tree) stopwatch (.request r.index r.start r.length) =
      (.ok a, c.sending (Frame.encode (r.reply data))) := by
  obtain ⟨-, -, hlength, -⟩ := h.awaits.stretch r hr
  obtain ⟨store, hread⟩ := h.reads hr
  have hshort : r.length ≤ Attempt.longestServed :=
    UInt32.le_iff_toNat_le.2 (Nat.le_trans hlength h.awaits.blockSize_le)
  exact Connection.handle_served hc a stopwatch hshort (congrArg Prod.fst hread)

/-- A request that went out is served, and its reply is on its way. -/
theorem answer_eq (h : x.InStep spec data) (pick stopwatch : Nat) :
    x.unserved = [] ∧ x.answer pick stopwatch = x ∨
      ∃ r store, x.unserved[pick % x.unserved.length]? = some r ∧
        store.Handles x.tree ∧ store.layout = x.store.layout ∧
        store.completed = x.store.completed ∧
        x.answer pick stopwatch = { x with
          asking := x.asking.receiving (Frame.encode (r.reply data))
          serving := x.serving.sending (Frame.encode (r.reply data))
          store := store
          unserved := x.unserved.eraseIdx (pick % x.unserved.length)
          coming := x.coming ++ [r] } := by
  by_cases hnone : x.unserved = []
  · refine .inl ⟨hnone, ?_⟩
    rw [Dialogue.answer, hnone]
    rfl
  have hlt : pick % x.unserved.length < x.unserved.length :=
    Nat.mod_lt _ (List.length_pos_iff.2 hnone)
  have hpicked := List.getElem?_eq_getElem hlt
  generalize x.unserved[pick % x.unserved.length] = r at hpicked
  have hwaits := List.mem_append_left x.coming (List.mem_of_getElem? hpicked)
  obtain ⟨store, hread⟩ := h.reads hwaits
  obtain ⟨-, hhandles, hlayout, hcompleted⟩ := Store.readBlock_keeps h.handles hread
  have hserved := h.served hwaits h.servingTakesAll x.theirs stopwatch
  refine .inr ⟨r, store, hpicked, hhandles, hlayout, hcompleted, ?_⟩
  rw [Dialogue.answer, hpicked]
  simp only [Frame.decode_encode_request, hserved, hread]
  simp only [Connection.sending, List.drop_left]

theorem answer (h : x.InStep spec data) (pick stopwatch : Nat) :
    (x.answer pick stopwatch).InStep spec data ∧ (x.answer pick stopwatch).left = x.left ∧
      (x.unserved ++ x.coming ≠ [] → (x.answer pick stopwatch).coming ≠ []) := by
  rcases h.answer_eq pick stopwatch with ⟨hnone, hsame⟩ |
    ⟨r, store, hpicked, hhandles, hlayout, hcompleted, hanswer⟩
  · rw [hsame, hnone]
    exact ⟨h, rfl, fun hwaits => hwaits⟩
  · have hperm : (x.unserved ++ x.coming).Perm
        (x.unserved.eraseIdx (pick % x.unserved.length) ++ (x.coming ++ [r])) := by
      obtain ⟨hlt, rfl⟩ := List.getElem?_eq_some_iff.1 hpicked
      have herase := (List.getElem_cons_eraseIdx_perm hlt).symm.append_right x.coming
      refine herase.trans ?_
      rw [← List.append_assoc]
      exact (List.perm_append_singleton _ _).symm
    rw [hanswer]
    refine ⟨⟨h.awaits.perm hperm, h.unchoked, h.window_pos, ?_, h.limit, ?_, ?_, hhandles, ?_, ?_⟩,
      ?_, ?_⟩
    · exact Connection.takesAll_receiving h.takesAll _
    · rw [Connection.incoming_receiving, h.incoming, List.flatMap_append, List.flatMap_singleton]
    · exact Connection.takesAll_sending h.servingTakesAll _
    · show store.completed.has spec.index = true
      rw [hcompleted]
      exact h.complete
    · exact h.lies.extends hlayout (.refl x.tree)
    · exact congrArg x.attempt.blocksLeft hperm.length_eq.symm
    · intro _
      exact List.append_ne_nil_of_right_ne_nil x.coming (List.cons_ne_nil r [])

/-- A reply that came leaves one block less to come. -/
theorem receive (h : x.InStep spec data) (moment : Moment) :
    (x.receive moment).InStep spec data ∧
      (x.receive moment).left = x.left - (if x.coming = [] then 0 else 1) := by
  rw [Dialogue.receive]
  split
  next hnone =>
    rw [if_pos hnone]
    exact ⟨h, rfl⟩
  next r rest hcoming =>
    rw [hcoming, if_neg (List.cons_ne_nil r rest)]
    have hin := h.incoming
    rw [hcoming, List.flatMap_cons] at hin
    have hwaits := h.awaits.perm (show (x.unserved ++ x.coming).Perm (r :: (x.unserved ++ rest)) by
      rw [hcoming]
      exact List.perm_middle)
    have hreadable : (r.reply data).Readable x.asking.limit := by
      obtain ⟨-, -, hlength, hend⟩ := hwaits.stretch r List.mem_cons_self
      have hle := hwaits.requested_le
      have hdata := hwaits.data_length
      have hblock : (r.block data).length = r.length.toNat :=
        BlockRequest.length_block (by omega)
      have hlimit := h.limit
      have hsize := hwaits.blockSize_le
      refine .inr ⟨nofun, nofun, ?_⟩
      simp only [BlockRequest.reply, Message.piece, List.length_append, BigEndian.length_toBytes]
      omega
    obtain ⟨hread, hrest⟩ := Connection.read_encode hreadable hin
    have hmessage : x.asking.read none = (.ok (r.reply data), (x.asking.read none).2) :=
      Prod.ext hread rfl
    obtain ⟨a', hobeyed, hawaits, hleft⟩ := hwaits.received x.asking.session moment.stopwatch
    rw [hmessage]
    simp only [Connection.handle_of_noRequest (c := (x.asking.read none).2) hobeyed]
    refine ⟨⟨hawaits, h.unchoked, ?_, h.takesAll.receive _ _, h.limit, hrest, h.servingTakesAll,
      h.handles, h.complete, h.lies⟩, ?_⟩
    · exact Session.window_recordBlock_pos h.window_pos _ _
    · rw [Dialogue.left, Dialogue.left, hcoming, List.perm_middle.length_eq, ← hleft]
      rfl

/-- Every act keeps both ends in step, and no act leaves more blocks to come. -/
theorem act (h : x.InStep spec data) (e : Act) :
    (x.act e).InStep spec data ∧ (x.act e).left ≤ x.left := by
  cases e with
  | ask => exact ⟨h.ask.1, Nat.le_of_eq h.ask.2⟩
  | answer pick stopwatch =>
      obtain ⟨hnext, hleft, -⟩ := h.answer pick stopwatch
      exact ⟨hnext, Nat.le_of_eq hleft⟩
  | receive moment =>
      obtain ⟨hnext, hleft⟩ := h.receive moment
      refine ⟨hnext, ?_⟩
      show (x.receive moment).left ≤ x.left
      rw [hleft]
      exact Nat.sub_le _ _

theorem run (h : x.InStep spec data) (acts : List Act) :
    (x.run acts).InStep spec data ∧ (x.run acts).left ≤ x.left := by
  induction acts generalizing x with
  | nil => exact ⟨h, Nat.le_refl _⟩
  | cons e acts ih =>
      obtain ⟨hnext, hle⟩ := h.act e
      obtain ⟨hlast, hle'⟩ := ih hnext
      exact ⟨hlast, Nat.le_trans hle' hle⟩

/-- The piece is there exactly when no block is to come any more. -/
theorem isDone_iff (h : x.InStep spec data) : x.attempt.isDone = true ↔ x.left = 0 :=
  h.awaits.isDone_iff

theorem of_isDone (h : x.InStep spec data) (hdone : x.attempt.isDone = true) :
    x.attempt.buffer = data ∧ x.attempt.backlog = 0 := by
  obtain ⟨hnone, hbuffer⟩ := h.awaits.of_isDone hdone
  have hbacklog := h.awaits.backlog_eq
  rw [hnone] at hbacklog
  exact ⟨hbuffer, UInt32.toNat_inj.1 hbacklog⟩

/-- Once all requests are out that may go out, some wait, unless the piece is there. -/
theorem waiting_ask (h : x.InStep spec data) (hdone : x.ask.attempt.isDone = false) :
    x.ask.unserved ++ x.ask.coming ≠ [] := by
  obtain ⟨hnext, -⟩ := h.ask
  refine hnext.awaits.waiting_ne_nil ?_ hnext.unchoked hnext.window_pos hdone
  rw [h.ask_eq]
  refine (h.awaits.withState .requesting).nextRequest?_requests x.asking.session ?_
  rw [h.awaits.spec_eq]
  exact Nat.sub_le _ _

/-- Every turn with at least one reply leaves a block less to come, as long as one is to come. -/
theorem turn (h : x.InStep spec data) {picks : List (Nat × Nat × Moment)} (hpicks : picks ≠ []) :
    (x.run (turn picks)).left ≤ x.left - 1 := by
  obtain ⟨⟨pick, stopwatch, moment⟩, rest, rfl⟩ := List.exists_cons_of_ne_nil hpicks
  obtain ⟨hasked, hleft⟩ := h.ask
  obtain ⟨hanswered, hleft', hcoming⟩ := hasked.answer pick stopwatch
  obtain ⟨hreceived, hleft''⟩ := hanswered.receive moment
  have hlast := (hreceived.run (exchange rest)).2
  show (((x.ask.answer pick stopwatch).receive moment).run (exchange rest)).left ≤ x.left - 1
  by_cases hdone : x.ask.attempt.isDone = true
  · have hzero := hasked.isDone_iff.1 hdone
    omega
  · rw [if_neg (hcoming (h.waiting_ask (Bool.eq_false_iff.2 hdone)))] at hleft''
    omega

/-- As many turns as there are blocks to come bring the piece. -/
theorem turns (h : x.InStep spec data) {turns : List (List (Nat × Nat × Moment))}
    (hturns : ∀ picks ∈ turns, picks ≠ []) :
    (x.run (turns.flatMap Dialogue.turn)).left ≤ x.left - turns.length := by
  induction turns generalizing x with
  | nil => exact Nat.le_refl _
  | cons picks rest ih =>
      have hfirst := h.turn (hturns picks List.mem_cons_self)
      have hrest := ih (h.run (Dialogue.turn picks)).1
        fun picks' hpicks' => hturns picks' (List.mem_cons_of_mem picks hpicks')
      rw [List.flatMap_cons, Dialogue.run_append, List.length_cons]
      omega

end InStep

/-- Both ends of our own fit together.  A piece that an archive has, however many of its calls are
still at work, is fetched from it over a connection that lets us ask, in blocks of any size up to
the longest that is served.  Every request that goes out is answered, by any end that serves from
that store, with exactly one piece frame.  In whatever order the requests are served and their
replies received, as many requests have no reply as the backlog says, the piece is right when it is
done, and it is done after as many turns as it has blocks. -/
theorem piece_exchanged {d : Descriptor} {s : Store} {tree tree' : FileTree}
    {root name : List Char} (hcheck : d.check = .ok ())
    (hopen : Store.open_ tree root d name = (.ok s, tree'))
    (hplaces : (Store.placesOf tree root name d).Nodup) (before : List Archive.Act)
    (hagree : Archive.Agree before) {i : PieceIndex} {data : Bytes}
    (hpiece : let a := (Archive.idle s tree').run before
      .write i data (.finished (.ok ())) ∈ a.calls ∨
        a.store.hasPiece i = true ∧ a.store.Lies a.tree i data [])
    {spec : PieceSpec} (hspec : d.piece? i = some spec) {blockSize : UInt32}
    (hpos : 1 ≤ blockSize.toNat) (hle : blockSize.toNat ≤ 131072) (asking serving : Connection)
    (theirs : Attempt) (hchoked : asking.session.choked = false)
    (hwindow : 1 ≤ asking.session.window.toNat) (hlimit : 131081 ≤ asking.limit.toNat)
    (hempty : asking.stream.incoming = []) (htakes : asking.stream.TakesAll)
    (hserving : serving.stream.TakesAll) (acts : List Act) :
    let a := (Archive.idle s tree').run before
    let x : Dialogue := ⟨asking, .start spec blockSize, serving, theirs, a.store, a.tree, [], []⟩
    let y := x.run acts
    (y.ask.asking = y.asking.sending (y.requests.flatMap fun r =>
        Frame.encode (.request r.index r.start r.length)) ∧
      ∀ r ∈ y.requests, ∀ (c : Connection) (b : Attempt) (stopwatch : Nat), c.stream.TakesAll →
        let m := .request r.index r.start r.length
        Frame.decode (Frame.encode m) = .ok m ∧
          c.handle b (y.store.serve y.tree) stopwatch m =
            (.ok b, c.sending (Frame.encode (.piece r.index r.start (r.block data))))) ∧
    y.attempt.backlog.toNat = y.unserved.length + y.coming.length ∧
    (y.attempt.isDone = true → y.attempt.buffer = data ∧ y.attempt.backlog = 0) ∧
    ∀ turns : List (List (Nat × Nat × Moment)), (∀ picks ∈ turns, picks ≠ []) →
      (spec.length.toNat + (blockSize.toNat - 1)) / blockSize.toNat ≤ turns.length →
      let z := y.run (turns.flatMap turn)
      z.attempt.isDone = true ∧ z.attempt.buffer = data ∧ z.attempt.backlog = 0 := by
  intro a x y
  have hd : d.Sound := Descriptor.sound_of_check hcheck
  have horderly : a.Orderly d before :=
    (Archive.orderly_idle hopen hplaces before).run hd hagree fun _ he => he
  have hthere : a.store.hasPiece i = true ∧ a.store.Lies a.tree i data [] := by
    rcases hpiece with hcall | hthere
    · exact (horderly.of_finished hcall).symm
    · exact hthere
  obtain ⟨hcomplete, hlies⟩ := hthere
  obtain ⟨_, _, hlaid, -⟩ := id hlies
  have hindex : spec.index = i := Descriptor.index_of_piece? hspec
  have hlength : data.length = spec.length.toNat := by
    have hpiece? := hd.piece?_eq (hlaid.lt horderly.fits)
    rw [hspec] at hpiece?
    rw [hlaid.length_eq horderly.fits hd, Option.some.inj hpiece?]
    exact hd.toNat_length.symm
  have hx : x.InStep spec data :=
    ⟨Attempt.awaits_start hpos hle hlength, hchoked, hwindow, htakes, hlimit, hempty, hserving,
      horderly.housed.handles, hindex.symm ▸ hcomplete, hindex.symm ▸ hlies⟩
  obtain ⟨hy, hfewer⟩ := hx.run acts
  refine ⟨⟨congrArg Dialogue.asking hy.ask_eq, ?_⟩, ?_, hy.of_isDone, ?_⟩
  · intro r hr c b stopwatch hc m
    have hasked := hy.ask.1
    rw [hy.ask_eq] at hasked
    refine ⟨Frame.decode_encode_request r, hasked.served ?_ hc b stopwatch⟩
    exact List.mem_append_left _ (List.mem_append_right _ hr)
  · rw [hy.awaits.backlog_eq, List.length_append]
  · intro turns hturns henough z
    obtain ⟨hz, -⟩ := hy.run (turns.flatMap turn)
    have hall : x.left ≤ turns.length := by
      show (Attempt.start spec blockSize).blocksLeft 0 ≤ turns.length
      rw [Attempt.blocksLeft, Attempt.blockSize_start hpos]
      exact henough
    have hfew := hy.turns hturns
    have hdone : z.attempt.isDone = true := hz.isDone_iff.2 (by omega)
    exact ⟨hdone, hz.of_isDone hdone⟩

/-- The second byte of a piece is served before the first. -/
theorem piece_exchanged_last_first :
    let d : Descriptor := ⟨⟨.zero 20⟩, 4, 2, [.zero 20, .zero 20], [⟨"a", 3⟩, ⟨"b", 1⟩]⟩
    let before : List Archive.Act := .write 1 [3, 4] :: List.replicate 8 (.proceed 0 none)
    let session : Session :=
      { Session.opened ⟨.short ⟨127, 0, 0, 1⟩, 6881⟩ ⟨.zero 20⟩ ⟨[]⟩ 0 with choked := false }
    let c : Connection :=
      ⟨session, .start [] .silent none none, Settings.standard.maxMessageLength⟩
    let spec : PieceSpec := ⟨1, .zero 20, 2⟩
    let moment : Moment := ⟨fun _ => none, 0⟩
    let acts : List Act := [.ask, .answer 1 0, .receive moment]
    let turns := [[(0, 0, moment)], [(0, 0, moment)]]
    d.check = .ok () ∧ d.piece? 1 = some spec ∧
      (Store.placesOf (.empty []) ['t'] ['r'] d).Nodup ∧
      Archive.Agree before ∧
      ∃ s tree, Store.open_ (.empty []) ['t'] d ['r'] = (.ok s, tree) ∧
        let a := (Archive.idle s tree).run before
        let x : Dialogue := ⟨c, .start spec 1, c, .start spec 1, a.store, a.tree, [], []⟩
        .write 1 [3, 4] (.finished (.ok ())) ∈ a.calls ∧
          (x.run acts).attempt.buffer = [0, 4] ∧ (x.run acts).attempt.backlog = 1 ∧
          ((x.run acts).run (turns.flatMap turn)).attempt.buffer = [3, 4] := by
  intro d before session c spec moment acts turns
  have hopen : Store.open_ (.empty []) ['t']
    ⟨⟨.zero 20⟩, 4, 2, [.zero 20, .zero 20], [⟨"a", 3⟩, ⟨"b", 1⟩]⟩ ['r'] = (.ok _, _) := rfl
  have htakes : c.stream.TakesAll := ⟨rfl, nofun, rfl⟩
  have hspec : d.piece? 1 = some spec := by decide +kernel
  have hcheck : d.check = .ok () := by decide +kernel
  have hsize : 1 ≤ (1 : UInt32).toNat := by decide
  have hexchanged := @piece_exchanged d _ _ _ _ _ hcheck hopen (by decide) before
    (by decide) 1 [3, 4] (.inl (by decide +kernel)) spec hspec 1 hsize (by decide) c c
    (.start spec 1) rfl (by decide) (by decide) rfl htakes htakes acts
  refine ⟨hcheck, hspec, by decide, by decide, _, _, hopen, by decide +kernel, by decide +kernel,
    by decide +kernel, ?_⟩
  exact (hexchanged.2.2.2 turns (by simp [turns]) (by decide)).2.1

end Dialogue

end Torrent
