import Mathlib.Data.List.Induction
import Torrent.Descriptor.Basic
import Torrent.Proofs.Attempt.Course
import Torrent.Proofs.Attempt.Turns

/-!
# What an attempt counts

The count of an attempt is a word, and nothing is checked when a block is added to
it.  So it is the number of bytes that came modulo 2^32, along every course
(`Course.tally`).

Fetching stops when the count has reached the length of the piece.  So the count is
below the length before a turn; the block that comes in it may be as long as the piece
again, and no longer than the limit on messages lets it be.  The count is exact along
all turns just where these two together do not go past the word
(`Connection.downloaded_counts`), and there are pieces where they do
(`Connection.downloaded_wraps`).
-/

namespace Torrent

/-- How many bytes there are in the blocks that messages bring. -/
def bytesIn (ms : List Message) : Nat := (positionsOf (blocksOf ms)).length

section

variable {m : Message} {ms : List Message} {spec : PieceSpec} {limit : UInt32}

theorem bytesIn_append (ms ms' : List Message) : bytesIn (ms ++ ms') = bytesIn ms + bytesIn ms' := by
  rw [bytesIn, blocksOf_append, positionsOf_append, List.length_append]
  rfl

theorem bytesIn_replicate (n : Nat) (m : Message) :
    bytesIn (List.replicate n m) = n * bytesIn [m] := by
  induction n with
  | zero => rw [Nat.zero_mul]; rfl
  | succ n ih => rw [List.replicate_succ', bytesIn_append, ih, Nat.add_one_mul]

theorem bytesIn_of_brought? {b : Block} (h : m.brought? = some b) :
    bytesIn [m] = b.bytes.length := by
  rw [bytesIn, blocksOf_singleton, h, Option.toList_some, length_positionsOf_singleton]

theorem bytesIn_of_brings_none (h : m.brought? = none) : bytesIn [m] = 0 := by
  rw [bytesIn, blocksOf_singleton, h]
  rfl

theorem bytesIn_piece (index : PieceIndex) (place : UInt32) (bytes : Bytes) :
    bytesIn [.piece index place bytes] = bytes.length :=
  bytesIn_of_brought? (Message.brought?_piece index place bytes)

/-- A block is no longer than the piece that it suits. -/
theorem bytesIn_le_of_suits (h : m.Suits spec) : bytesIn [m] ≤ spec.length.toNat := by
  cases hbrought : m.brought? with
  | none =>
      rw [bytesIn_of_brings_none hbrought]
      exact Nat.zero_le _
  | some b =>
      have hfits := h.within b hbrought
      rw [bytesIn_of_brought? hbrought]
      omega

/-- A block comes with nine bytes more, and none where the limit is lower. -/
theorem bytesIn_le_of_readable (hsuits : m.Suits spec) (h : m.Readable limit) :
    bytesIn [m] ≤ limit.toNat - 9 := by
  by_cases hkind : m.kind = .piece
  · have hwords := hsuits.words hkind
    obtain ⟨b, hbrought, hlength⟩ :
        ∃ b, m.brought? = some b ∧ b.bytes.length = m.payload.length - 8 :=
      ⟨_, if_pos hkind, List.length_drop⟩
    rw [bytesIn_of_brought? hbrought, hlength]
    rcases h with rfl | ⟨-, -, hlimit⟩
    · cases hkind
    · omega
  · rw [bytesIn_of_brings_none (Message.brought?_eq_none hkind)]
    exact Nat.zero_le _

end

namespace Attempt

/-- The bytes of a message are added to the count, which may wrap. -/
theorem downloaded_afterMessage (a : Attempt) (m : Message) :
    (a.afterMessage m).downloaded.toNat = (a.downloaded.toNat + bytesIn [m]) % UInt32.size := by
  rw [afterMessage]
  cases hbrought : m.brought? with
  | none =>
      rw [bytesIn_of_brings_none hbrought, Nat.add_zero, Nat.mod_eq_of_lt a.downloaded.toNat_lt]
  | some b =>
      rw [bytesIn_of_brought? hbrought]
      show (a.downloaded + UInt32.ofNat b.bytes.length).toNat = _
      rw [UInt32.toNat_add, UInt32.toNat_ofNat', Nat.add_mod_mod]

/-- A message that suits the piece brings the bytes of its block. -/
theorem received_of_suits {a : Attempt} {m : Message} (h : m.Suits a.spec) :
    a.received m = bytesIn [m] := by
  rw [received]
  by_cases hkind : m.kind = .piece
  · have hmade := Message.eq_piece hkind (h.words hkind)
    rw [h.index hkind] at hmade
    have hbrought : m.brought? = some _ := if_pos hkind
    rw [Message.block_eq_ok_iff.2 ⟨_, rfl, hmade, h.within _ hbrought⟩,
      bytesIn_of_brought? hbrought]
  · rw [Message.block, if_pos hkind, bytesIn_of_brings_none (Message.brought?_eq_none hkind)]

theorem received_of_kind {a : Attempt} {m : Message} (h : m.kind ≠ .piece) : a.received m = 0 := by
  rw [received, Message.block, if_pos h]

/-- A session records what comes of its piece. -/
theorem throughput_of_handle {a a' : Attempt} {s s' : Session} {now : Nat} {m : Message}
    {request : Option BlockRequest} (hroom : a.buffer.length = a.spec.length.toNat)
    (hok : a.handle s now m = .ok (a', s', request)) :
    s'.throughput = s.throughput.record (UInt64.ofNat (a.received m)) now ∨
      s'.throughput = s.throughput ∧ a.received m = 0 := by
  by_cases hpiece : m.kind = .piece
  · have hsuits := (suits_of_handle hroom hok).1
    obtain ⟨b, hbrought, -⟩ := hsuits.copyBlock hpiece hroom
    rw [handle_brought hsuits hroom hbrought] at hok
    cases hok
    rw [received_of_suits hsuits, bytesIn_of_brought? hbrought]
    exact .inl rfl
  refine .inr ⟨?_, received_of_kind hpiece⟩
  cases hkind : m.kind with
  | piece => exact absurd hkind hpiece
  | have_ | request =>
      simp only [handle, hkind] at hok
      split at hok
      next => cases hok
      next =>
        cases hok
        rfl
  | choke | unchoke | bitfield | keepAlive | interested | notInterested | cancel | other id =>
      simp only [handle, hkind] at hok
      cases hok
      rfl

/-- What comes with a message that is obeyed is counted exactly, in the attempt and in the session,
just where it does not overflow. -/
theorem overflows_eq_false_iff {a a' : Attempt} {s s' : Session} {now : Nat} {m : Message}
    {request : Option BlockRequest} (hroom : a.buffer.length = a.spec.length.toNat)
    (hok : a.handle s now m = .ok (a', s', request)) :
    a.overflows s (a.received m) = false ↔
      a'.downloaded.toNat = a.downloaded.toNat + a.received m ∧
        s'.throughput.totalBytes.toNat = s.throughput.totalBytes.toNat + a.received m := by
  obtain ⟨hsuits, rfl⟩ := suits_of_handle hroom hok
  have hreceived := received_of_suits hsuits
  have hword : a.received m < UInt64.size := by
    have hpiece := bytesIn_le_of_suits hsuits
    have hlength := a.spec.length.toNat_lt
    have hsize : UInt64.size = 18446744073709551616 := rfl
    omega
  have hdownloaded : decide (UInt32.size ≤ a.downloaded.toNat + a.received m) = false ↔
      (a.afterMessage m).downloaded.toNat = a.downloaded.toNat + a.received m := by
    rw [downloaded_afterMessage, hreceived, decide_eq_false_iff_not, Nat.not_le]
    exact ⟨Nat.mod_eq_of_lt, fun hexact => hexact ▸ Nat.mod_lt _ (by decide)⟩
  have htotal : s.throughput.overflows (UInt64.ofNat (a.received m)) = false ↔
      s'.throughput.totalBytes.toNat = s.throughput.totalBytes.toNat + a.received m := by
    rcases throughput_of_handle hroom hok with hrecorded | ⟨hsame, hnone⟩
    · rw [hrecorded, s.throughput.overflows_eq_false_iff _ now, UInt64.toNat_ofNat_of_lt' hword]
    · rw [hsame, hnone, s.throughput.overflows_eq_false_iff _ now, Throughput.totalBytes_record]
      simp
  rw [overflows, Bool.or_eq_false_iff, hdownloaded, htotal]

end Attempt

/-! ## Along a course -/

namespace Course

variable {spec : PieceSpec} {x y : Course}

/-- The count is the number of the bytes that came, modulo 2^32. -/
structure Tallied (spec : PieceSpec) (x : Course) : Prop where
  spec_eq : x.attempt.spec = spec
  fitted : x.Fitted
  count : x.attempt.downloaded.toNat = bytesIn x.obeyed % UInt32.size

theorem tallied_start (s : Session) (spec : PieceSpec) (blockSize : UInt32) :
    (start s spec blockSize).Tallied spec :=
  ⟨rfl, fitted_start s spec blockSize, rfl⟩

theorem Tallied.step (h : x.Tallied spec) (hstep : x.Step y) : y.Tallied spec := by
  have hfitted := hstep.fitted h.fitted
  cases hstep with
  | asks hr => exact ⟨h.spec_eq, hfitted, h.count⟩
  | obeys reply hobeyed hreply =>
      obtain ⟨hsuits, rfl⟩ := Attempt.suits_of_handle h.fitted hobeyed
      obtain ⟨hspec, -⟩ := fitted_afterMessage h.fitted hsuits
      refine ⟨hspec.trans h.spec_eq, hfitted, ?_⟩
      show (Attempt.downloaded _).toNat = _
      rw [Attempt.downloaded_afterMessage, h.count, bytesIn_append, Nat.mod_add_mod]
  | passes throughput state => exact ⟨h.spec_eq, hfitted, h.count⟩

theorem tally {s : Session} {blockSize : UInt32} (h : (start s spec blockSize).Reaches x) :
    x.Tallied spec := by
  induction h with
  | refl => exact tallied_start s spec blockSize
  | tail _ hstep ih => exact ih.step hstep

end Course

/-! ## Turn by turn -/

namespace Connection

variable {moment : Moment} {moments : Nat → Moment} {k : Nat} {c c' : Connection} {a a' : Attempt}
  {m : Message} {ms : List Message} {spec : PieceSpec} {limit : UInt32} {rest : Bytes}

/-- A turn adds the bytes of its message to the count, which was below the length before. -/
theorem Turn.Effect.count (h : Turn.Effect c a m c' a')
    (hroom : a.buffer.length = a.spec.length.toNat) :
    a'.spec = a.spec ∧ a'.buffer.length = a.spec.length.toNat ∧
      a'.downloaded.toNat = (a.downloaded.toNat + bytesIn [m]) % UInt32.size ∧
      a.downloaded.toNat < a.spec.length.toNat := by
  obtain ⟨a₁, hspec, hbuffer, hcount, rfl⟩ := h.attempt
  have hroom₁ : a₁.buffer.length = a₁.spec.length.toNat := by rw [hbuffer, hspec, hroom]
  obtain ⟨hspec', -, -, hroom'⟩ := Course.fitted_afterMessage hroom₁ (hspec ▸ h.suits)
  refine ⟨hspec'.trans hspec, hspec ▸ hroom', ?_, ?_⟩
  · rw [Attempt.downloaded_afterMessage, hcount]
  · have hbefore : ¬a.spec.length ≤ a.downloaded := of_decide_eq_false h.more
    rw [UInt32.le_iff_toNat_le] at hbefore
    omega

/-- What all turns keep: the count is the number of the bytes that came, modulo 2^32. -/
structure Turns.Kept (limit : UInt32) (spec : PieceSpec) (ms : List Message) (c : Connection)
    (a : Attempt) : Prop where
  limit_eq : c.limit = limit
  spec_eq : a.spec = spec
  room : a.buffer.length = spec.length.toNat
  count : a.downloaded.toNat = bytesIn ms % UInt32.size

theorem Turns.kept {blockSize : UInt32} (h : Turns moments k c (.start spec blockSize) ms c' a') :
    Turns.Kept c.limit spec ms c' a' := by
  induction h with
  | start => exact ⟨rfl, rfl, Bytes.length_zeros _, rfl⟩
  | turn hturns hturn ih =>
      have hroom := ih.spec_eq.symm ▸ ih.room
      have heffect := hturn.effect hroom
      obtain ⟨hspec, hroom', hcount, -⟩ := heffect.count hroom
      refine ⟨heffect.limit_eq.trans ih.limit_eq, hspec.trans ih.spec_eq, ?_, ?_⟩
      · rw [hroom', ih.spec_eq]
      · rw [hcount, ih.count, bytesIn_append, Nat.mod_add_mod]

/-- The count is exact as long as a piece and a block fit into a word together. -/
theorem Turns.exact {blockSize : UInt32} (h : Turns moments k c (.start spec blockSize) ms c' a')
    (hfits : spec.length.toNat + min spec.length.toNat (c.limit.toNat - 9) ≤ UInt32.size) :
    a'.downloaded.toNat = bytesIn ms := by
  induction h with
  | start => rfl
  | @turn ms m c₁ c₂ a₁ a₂ hturns hturn ih =>
      have hkept := hturns.kept
      have hroom := hkept.spec_eq.symm ▸ hkept.room
      have heffect := hturn.effect hroom
      obtain ⟨-, -, hcount, hbefore⟩ := heffect.count hroom
      have hsuits := heffect.suits
      have hreadable := heffect.readable
      rw [hkept.spec_eq] at hsuits hbefore
      rw [hkept.limit_eq] at hreadable
      -- The count was below the length, and the block is bounded by the length and by the limit.
      have hpiece := bytesIn_le_of_suits hsuits
      have hlimit := bytesIn_le_of_readable hsuits hreadable
      rw [hcount, ih, bytesIn_append]
      exact Nat.mod_eq_of_lt (by omega)

/-! ## Turns that there are -/

/-- Nothing is asked for while the session is choked. -/
theorem requestBlocks_of_choked (h : c.session.choked = true) (n : Nat) :
    c.requestBlocks a n = (.ok a, c) := by
  cases n with
  | zero => rfl
  | succ n =>
      have hnone : a.nextRequest? c.session = none := if_neg (by simp [h])
      rw [requestBlocks, hnone]

/-- A block that suits the piece is taken, and nothing is written. -/
theorem handle_brought (c : Connection) {b : Block} (hsuits : m.Suits a.spec)
    (hroom : a.buffer.length = a.spec.length.toNat) (hb : m.brought? = some b) (serve : Serve)
    (stopwatch : Nat) :
    c.handle a serve stopwatch m =
      (.ok (a.afterBlock b),
        { c with session := c.session.recordBlock b.bytes.length stopwatch }) := by
  rw [handle, Attempt.handle_brought hsuits hroom hb]
  rfl

/-- A block that suits the piece and is next on the stream is taken, while the piece is not there. -/
theorem exists_turn (moment : Moment) (hchoked : c.session.choked = true)
    (hroom : a.buffer.length = a.spec.length.toNat) (hmore : a.isDone = false)
    (hreadable : m.Readable c.limit) (hsuits : m.Suits a.spec) (hkind : m.kind = .piece)
    (hin : c.stream.incoming = Frame.encode m ++ rest) :
    ∃ c' a', Turn moment c a m c' a' ∧ c'.session.choked = true ∧ c'.stream.incoming = rest := by
  obtain ⟨hread, hleft⟩ := read_encode hreadable hin
  obtain ⟨b, hbrought, -⟩ := hsuits.copyBlock hkind hroom
  have hobeyed := (c.read none).2.handle_brought (a := { a with state := .awaiting }) hsuits hroom
    hbrought moment.serve moment.stopwatch
  exact ⟨_, _, .turn hmore (requestBlocks_of_choked hchoked _) (Prod.ext hread rfl) hobeyed,
    hchoked, hleft⟩

/-- Blocks that suit the piece are taken one after the other, as long as less came before each of
them than the piece is long. -/
theorem exists_turns (moments : Nat → Moment) (blockSize : UInt32)
    (hchoked : c.session.choked = true)
    (hms : ∀ m ∈ ms, m.Readable c.limit ∧ m.Suits spec ∧ m.kind = .piece)
    (hbefore : ∀ j < ms.length, bytesIn (ms.take j) < spec.length.toNat)
    (hin : c.stream.incoming = ms.flatMap Frame.encode ++ rest) :
    ∃ c' a', Turns moments 0 c (.start spec blockSize) ms c' a' ∧ c'.session.choked = true ∧
      c'.stream.incoming = rest := by
  induction ms using List.reverseRecOn generalizing rest with
  | nil => exact ⟨c, _, .start, hchoked, hin⟩
  | append_singleton ms m ih =>
      rw [List.flatMap_append, List.flatMap_singleton, List.append_assoc] at hin
      have hfront : ∀ j < ms.length, bytesIn (ms.take j) < spec.length.toNat := fun j hj => by
        have htake : (ms ++ [m]).take j = ms.take j :=
          List.take_append_of_le_length (Nat.le_of_lt hj)
        exact htake ▸ hbefore j (by rw [List.length_append]; omega)
      obtain ⟨c₁, a₁, hturns, hchoked₁, hin₁⟩ :=
        ih (fun m' hm' => hms m' (List.mem_append_left _ hm')) hfront hin
      obtain ⟨hreadable, hsuits, hkind⟩ := hms m (List.mem_append_right _ List.mem_cons_self)
      have hkept := hturns.kept
      have hless : bytesIn ms < spec.length.toNat := by
        have := hbefore ms.length (by rw [List.length_append]; exact Nat.lt_succ_self _)
        rwa [List.take_left] at this
      have hmore : a₁.isDone = false := by
        have hcount := hkept.count
        rw [Nat.mod_eq_of_lt (Nat.lt_trans hless spec.length.toNat_lt)] at hcount
        refine decide_eq_false fun hle => ?_
        rw [UInt32.le_iff_toNat_le, hkept.spec_eq] at hle
        omega
      obtain ⟨c₂, a₂, hturn, hchoked₂, hin₂⟩ := exists_turn (moments (0 + ms.length)) hchoked₁
        (hkept.spec_eq ▸ hkept.room) hmore (hkept.limit_eq ▸ hreadable) (hkept.spec_eq ▸ hsuits)
        hkind hin₁
      exact ⟨c₂, a₂, hturns.turn hturn, hchoked₂, hin₂⟩

/-- A block with its words fits into a limit that leaves nine bytes beside it. -/
theorem readable_piece {index : PieceIndex} {place : UInt32} {bytes : Bytes}
    (h : bytes.length + 9 ≤ limit.toNat) : (Message.piece index place bytes).Readable limit := by
  obtain ⟨-, -, hlength⟩ := Message.ofBytes_payload_piece index place bytes
  exact .inr ⟨nofun, nofun, by omega⟩

/-- A block of zeros that begins a piece. -/
def front (index : PieceIndex) (size : Nat) : Message := .piece index 0 (Bytes.zeros size)

theorem bytesIn_front (index : PieceIndex) (size : Nat) : bytesIn [front index size] = size :=
  (bytesIn_piece _ _ _).trans (Bytes.length_zeros size)

theorem suits_front {size : Nat} (h : size ≤ spec.length.toNat) :
    (front spec.index size).Suits spec :=
  Message.suits_piece (by rwa [Bytes.length_zeros, UInt32.toNat_zero, Nat.zero_add])

theorem front_taken (spec : PieceSpec) {size : Nat} (hpiece : size ≤ spec.length.toNat)
    (hlimit : size + 9 ≤ limit.toNat) :
    (front spec.index size).Readable limit ∧ (front spec.index size).Suits spec ∧
      (front spec.index size).kind = .piece :=
  ⟨readable_piece (by rwa [Bytes.length_zeros]), suits_front hpiece, rfl⟩

/-- A choked session in which nothing comes but messages. -/
def hearing (limit : UInt32) (ms : List Message) : Connection :=
  ⟨.opened ⟨.short ⟨127, 0, 0, 1⟩, 6881⟩ ⟨.zero 20⟩ ⟨[]⟩ 0,
    .start [.bytes (ms.flatMap Frame.encode)] .silent none none, limit⟩

theorem incoming_hearing (limit : UInt32) (ms : List Message) :
    (hearing limit ms).stream.incoming = ms.flatMap Frame.encode ++ [] := rfl

/-- The turns in which the bytes of a piece come one by one, all but the last of them, and then a
block. -/
theorem exists_turns_of_bytes (moments : Nat → Moment) (spec : PieceSpec) (blockSize : UInt32)
    {limit : UInt32} {size : Nat} (hsize : 0 < size) (hpiece : size ≤ spec.length.toNat)
    (hlimit : size + 9 ≤ limit.toNat) :
    ∃ c ms c' a', c.limit = limit ∧ Turns moments 0 c (.start spec blockSize) ms c' a' ∧
      bytesIn ms = spec.length.toNat - 1 + size := by
  let ms := List.replicate (spec.length.toNat - 1) (front spec.index 1) ++ [front spec.index size]
  have hms : ∀ m ∈ ms, m.Readable limit ∧ m.Suits spec ∧ m.kind = .piece := by
    intro m hm
    rcases List.mem_append.1 hm with hm | hm
    · obtain rfl := List.eq_of_mem_replicate hm
      exact front_taken spec (by omega) (by omega)
    · obtain rfl := List.mem_singleton.1 hm
      exact front_taken spec hpiece hlimit
  have hbefore : ∀ j < ms.length, bytesIn (ms.take j) < spec.length.toNat := by
    intro j hj
    rw [List.length_append, List.length_replicate, List.length_singleton] at hj
    rw [List.take_append_of_le_length (by rw [List.length_replicate]; omega), List.take_replicate,
      bytesIn_replicate, bytesIn_front]
    omega
  obtain ⟨c', a', hturns, -⟩ := exists_turns (c := hearing limit ms) moments blockSize rfl hms
    hbefore (incoming_hearing limit ms)
  refine ⟨_, ms, c', a', rfl, hturns, ?_⟩
  rw [bytesIn_append, bytesIn_replicate, bytesIn_front, bytesIn_front, Nat.mul_one]

/-- What an attempt counts are the bytes of the accepted blocks modulo 2^32, whatever the peer says.
Fetching, which goes turn by turn and ends once the count has reached the length of the piece,
counts them exactly for all that the peer may say just if the length, and the longest block that is
no longer than the piece or the limit on messages lets it be, make no more than 2^32 together. -/
theorem downloaded_counts (spec : PieceSpec) :
    (∀ session blockSize x, (Course.start session spec blockSize).Reaches x →
      x.attempt.downloaded.toNat = bytesIn x.obeyed % UInt32.size) ∧
    (∀ c moments blockSize ms c' a' n, Turns moments 0 c (.start spec blockSize) ms c' a' →
      c.fetchWithin moments (ms.length + n) 0 (.start spec blockSize) =
        c'.fetchWithin moments n ms.length a') ∧
    (∀ c moments blockSize n, ∃ ms c' a', Turns moments 0 c (.start spec blockSize) ms c' a' ∧
      (a'.isDone = true ∧
          c.fetchWithin moments n 0 (.start spec blockSize) = (.ok a'.buffer, c') ∨
        ∀ data, (c.fetchWithin moments n 0 (.start spec blockSize)).1 ≠ .ok data)) ∧
    ∀ limit : UInt32,
      (∀ c moments blockSize ms c' a', c.limit = limit →
        Turns moments 0 c (.start spec blockSize) ms c' a' → a'.downloaded.toNat = bytesIn ms) ↔
      spec.length.toNat + min spec.length.toNat (limit.toNat - 9) ≤ UInt32.size := by
  refine ⟨fun session blockSize x hx => (Course.tally hx).count,
    fun c moments blockSize ms c' a' n hturns => ?_,
    fun c moments blockSize n => exists_turns_of_fetchWithin c moments n 0 _,
    fun limit => ⟨fun hexact => ?_, ?_⟩⟩
  · rw [hturns.fetchWithin, Nat.zero_add]
  · refine Nat.le_of_not_lt fun hover => ?_
    have hword : spec.length.toNat < UInt32.size := spec.length.toNat_lt
    have hsome : 0 < min spec.length.toNat (limit.toNat - 9) := by omega
    obtain ⟨c, ms, c', a', hlimit, hturns, hbytes⟩ := exists_turns_of_bytes
      (fun _ => ⟨fun _ => none, 0⟩) spec 1 hsome (Nat.min_le_left _ _)
      (show _ ≤ limit.toNat by omega)
    have hcount := hexact c _ 1 ms c' a' hlimit hturns
    have hbound : a'.downloaded.toNat < UInt32.size := a'.downloaded.toNat_lt
    omega
  · rintro hfits c moments blockSize ms c' a' rfl hturns
    exact hturns.exact hfits

/-- Two blocks of three bytes come for a piece of five, and all six bytes are counted. -/
theorem downloaded_counts_two_blocks :
    let ms : List Message := [.piece 3 0 [1, 2, 3], .piece 3 2 [4, 5, 6]]
    let spec : PieceSpec := ⟨3, .zero 20, 5⟩
    ∃ c' a', Turns (fun k => ⟨fun _ => none, k⟩) 0 (hearing 2097165 ms) (.start spec 2) ms c' a' ∧
      bytesIn ms = 6 ∧ a'.downloaded.toNat = 6 := by
  intro ms spec
  have hms : ∀ m ∈ ms, m.Readable 2097165 ∧ m.Suits spec ∧ m.kind = .piece := by
    intro m hm
    simp only [ms, List.mem_cons, List.not_mem_nil, or_false] at hm
    rcases hm with rfl | rfl
    · exact ⟨readable_piece (by decide), Message.suits_piece (by decide), rfl⟩
    · exact ⟨readable_piece (by decide), Message.suits_piece (by decide), rfl⟩
  obtain ⟨c', a', hturns, -⟩ := exists_turns (c := hearing 2097165 ms)
    (fun k => ⟨fun _ => none, k⟩) 2 rfl hms (by decide) (incoming_hearing _ _)
  obtain ⟨-, -, -, hexact⟩ := downloaded_counts spec
  exact ⟨c', a', hturns, rfl, (hexact 2097165).2 (by decide) _ _ _ _ _ _ rfl hturns⟩

/-- A count of all numbers that a word can be is zero, and a piece that has any length is not there
then. -/
theorem wraps_of_count {n : Nat} (hspec : a.spec = spec) (hlength : spec.length ≠ 0)
    (hcount : a.downloaded.toNat = n % UInt32.size) (hn : n = UInt32.size) :
    a.downloaded = 0 ∧ a.isDone = false := by
  have hzero : a.downloaded = 0 := by
    rw [← UInt32.toNat_inj, hcount, hn, Nat.mod_self]
    rfl
  refine ⟨hzero, decide_eq_false fun hle => hlength ?_⟩
  rw [hzero, hspec] at hle
  exact UInt32.le_zero_iff.1 hle

/-- The last of some turns. -/
theorem Turns.last (h : Turns moments k c a (ms ++ [m]) c' a') :
    ∃ c₁ a₁, Turns moments k c a ms c₁ a₁ ∧ Turn (moments (k + ms.length)) c₁ a₁ m c' a' := by
  generalize hall : ms ++ [m] = all at h
  cases h with
  | start => exact absurd hall (by simp)
  | turn hturns hturn =>
      obtain ⟨rfl, hm⟩ := List.append_inj' hall rfl
      cases hm
      exact ⟨_, _, hturns, hturn⟩

/-- A piece is as long as its length can say, and a block of 16 MiB comes for it 256 times.  The
last of them does not fit the count any more, which is zero then, and fetching goes on. -/
theorem downloaded_wraps :
    let d : Descriptor := ⟨⟨.zero 20⟩, 4294967295, 4294967295, [.zero 20], [⟨"a", 4294967295⟩]⟩
    let block : Message := .piece 0 0 (Bytes.zeros 16777216)
    let ms := List.replicate 255 block
    let moments : Nat → Moment := fun k => ⟨fun _ => none, k⟩
    d.check = .ok () ∧ ∃ spec, d.piece? 0 = some spec ∧ ∃ c₁ a₁ c' a',
      Turns moments 0 (hearing 16777225 (ms ++ [block])) (.start spec 16384) ms c₁ a₁ ∧
      Turn (moments 255) c₁ a₁ block c' a' ∧ bytesIn (ms ++ [block]) = 4294967296 ∧
      a₁.downloaded = 4278190080 ∧ a₁.overflows c₁.session (a₁.received block) = true ∧
      a'.downloaded = 0 ∧ a'.isDone = false := by
  intro d block ms moments
  refine ⟨by decide +kernel, ⟨0, .zero 20, 4294967295⟩, by decide +kernel, ?_⟩
  have hsome : ms ++ [block] = List.replicate 256 (front 0 16777216) := List.replicate_succ'.symm
  have hbytes : bytesIn ms = 4278190080 := by
    rw [show ms = List.replicate 255 (front 0 16777216) from rfl, bytesIn_replicate, bytesIn_front]
  have hall : bytesIn (ms ++ [block]) = 4294967296 := by
    rw [hsome, bytesIn_replicate, bytesIn_front]
  have htaken : (front 0 16777216).Readable 16777225 ∧
      (front 0 16777216).Suits ⟨0, .zero 20, 4294967295⟩ ∧ (front 0 16777216).kind = .piece :=
    front_taken ⟨0, .zero 20, 4294967295⟩ (by decide) (by decide)
  have hms : ∀ m ∈ ms ++ [block], m.Readable 16777225 ∧ m.Suits ⟨0, .zero 20, 4294967295⟩ ∧
      m.kind = .piece := by
    rw [hsome]
    exact fun m hm => List.eq_of_mem_replicate hm ▸ htaken
  have hbefore : ∀ j < (ms ++ [block]).length,
      bytesIn ((ms ++ [block]).take j) < (4294967295 : UInt32).toNat := by
    intro j hj
    have hword : (4294967295 : UInt32).toNat = 4294967295 := rfl
    rw [hsome, List.length_replicate] at hj
    rw [hsome, List.take_replicate, bytesIn_replicate, bytesIn_front]
    omega
  obtain ⟨c', a', hturns, -⟩ := exists_turns (c := hearing 16777225 _) moments 16384 rfl hms
    hbefore (incoming_hearing _ _)
  have hkept := hturns.kept
  obtain ⟨c₁, a₁, hturns₁, hturn⟩ := hturns.last
  rw [show ms.length = 255 from List.length_replicate, Nat.zero_add] at hturn
  have hkept₁ := hturns₁.kept
  have hcount : a₁.downloaded.toNat = 4278190080 := by
    rw [hkept₁.count, hbytes]
    decide
  have hreceived : a₁.received block = 16777216 := by
    rw [Attempt.received_of_suits (hkept₁.spec_eq ▸ htaken.2.1)]
    exact bytesIn_front 0 16777216
  refine ⟨c₁, a₁, c', a', hturns₁, hturn, hall, UInt32.toNat_inj.1 hcount, ?_,
    wraps_of_count hkept.spec_eq nofun hkept.count hall⟩
  rw [Attempt.overflows, hreceived, hcount]
  rfl

end Connection

end Torrent
