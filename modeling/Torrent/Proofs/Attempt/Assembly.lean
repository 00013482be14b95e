import Torrent.Proofs.Attempt.Taken
import Torrent.Proofs.Stream.Framing
import Torrent.Proofs.Stream.Writing

/-!
# A piece put together

The blocks of a piece may come in any order and any sizes, and the peer may say
anything else between them.  As long as no two blocks meet, fetching the piece
puts every block in its place, and it stops reading right behind the message that
completes the piece (`Connection.assembled`).

`Connection.Feeds` is the invariant of the loop: what was taken and what is still
to come make the piece.
-/

namespace Torrent

namespace Connection

variable {c : Connection} {spec : PieceSpec} {a : Attempt} {taken : List Block} {m : Message}
  {ms : List Message} {rest : Bytes}

/-- Messages are next on the stream that suit a piece and bring what is missing of it after some
blocks were taken. -/
structure Feeds (c : Connection) (spec : PieceSpec) (taken : List Block) (ms : List Message)
    (rest : Bytes) : Prop where
  readable : ∀ m ∈ ms, m.Readable c.limit
  suits : ∀ m ∈ ms, m.Suits spec
  apart : (taken ++ blocksOf ms).Pairwise Block.Apart
  covers : Covers (taken ++ blocksOf ms) spec.length.toNat
  incoming : c.stream.incoming = ms.flatMap Frame.encode ++ rest

/-- What does not read takes no message away. -/
theorem Feeds.spared {α : Type} {P : α → Prop} {done : Except PeerError α × Connection}
    (h : c.Feeds spec taken ms rest) (hspares : c.Spares P done) :
    done.2.Feeds spec taken ms rest where
  readable := by
    rw [hspares.limit]
    exact h.readable
  suits := h.suits
  apart := h.apart
  covers := h.covers
  incoming := hspares.incoming.trans h.incoming

/-- Reading takes the first message, and its block belongs to what was taken. -/
theorem Feeds.read (h : c.Feeds spec taken (m :: ms) rest) :
    (c.read none).1 = .ok m ∧
      (c.read none).2.Feeds spec (taken ++ m.brought?.toList) ms rest := by
  have hin := h.incoming
  rw [List.flatMap_cons, List.append_assoc] at hin
  have hblocks := append_blocksOf_cons taken m ms
  obtain ⟨hread, hleft⟩ := read_encode (h.readable m List.mem_cons_self) hin
  exact ⟨hread, fun m' hm' => h.readable m' (List.mem_cons_of_mem m hm'),
    fun m' hm' => h.suits m' (List.mem_cons_of_mem m hm'), hblocks ▸ h.apart, hblocks ▸ h.covers,
    hleft⟩

/-! ## One turn -/

/-- Requests change nothing of what was taken. -/
theorem requestBlocks_spares (h : a.Took spec taken) (n : Nat) :
    c.Spares (Attempt.Took spec taken) (c.requestBlocks a n) :=
  requestBlocks_keeps (fun _ r htook => htook.afterRequest r) h n

/-- A message that suits the piece is obeyed and its block taken, and a request of the peer may be
answered. -/
theorem handle_spares (h : a.Took spec taken) (hsuits : m.Suits spec)
    (hapart : (taken ++ m.brought?.toList).Pairwise Block.Apart) (serve : Serve) (stopwatch : Nat) :
    c.Spares (Attempt.Took spec (taken ++ m.brought?.toList)) (c.handle a serve stopwatch m) := by
  obtain ⟨a', s', request, hhandle, htook⟩ := h.handle hsuits hapart c.session stopwatch
  have hobeyed := spares_ok (c := c) htook s'
  rw [handle, hhandle]
  simp only
  split
  next => exact hobeyed
  next reply _ =>
    have hsend := send_spares { c with session := s' } reply
    split
    next hfailed => exact hobeyed.followed rfl (hsend.failed hfailed)
    next c₁ hsent => exact hobeyed.followed rfl (hsend.followed hsent (spares_ok htook c₁.session))

/-! ## All turns -/

/-- Every message takes bytes. -/
theorem length_le_flatMap_encode (ms : List Message) :
    ms.length ≤ (ms.flatMap Frame.encode).length := by
  induction ms with
  | nil => exact Nat.le_refl 0
  | cons m ms ih =>
      have hfour := Frame.four_le_length_encode m
      rw [List.flatMap_cons, List.length_append, List.length_cons]
      omega

/-- The piece came of the blocks taken before and of messages read now.  Every block is in its place,
and no message was read once the piece was there. -/
def Completes (spec : PieceSpec) (taken : List Block) (ms : List Message) (rest : Bytes)
    (done : Result Bytes × Connection) : Prop :=
  ∃ data k, done.1 = .ok data ∧ data.length = spec.length.toNat ∧
    (∀ b ∈ taken ++ blocksOf ms, b.Lies data) ∧
    Covers (taken ++ blocksOf (ms.take k)) spec.length.toNat ∧
    (∀ j < k, ¬ Covers (taken ++ blocksOf (ms.take j)) spec.length.toNat) ∧
    done.2.stream.incoming = (ms.drop k).flatMap Frame.encode ++ rest

/-- A write failed because the stream takes no more bytes. -/
def Breaks (c : Connection) (done : Result Bytes × Connection) : Prop :=
  done.1 = .error (.io done.2.stream.refusal) ∧ done.2.stream.accepts 1 = 0 ∧ ¬ c.stream.TakesAll

/-- Once the blocks taken cover the piece, nothing is missing: the blocks still to come are
empty. -/
theorem Feeds.completes (h : c.Feeds spec taken ms rest) (htook : a.Took spec taken)
    (hcovers : Covers taken spec.length.toNat) :
    Completes spec taken ms rest (.ok a.buffer, c) := by
  obtain ⟨-, -, hmeet⟩ := List.pairwise_append.1 h.apart
  refine ⟨a.buffer, 0, rfl, htook.room, ?_, ?_, fun j hj => absurd hj (Nat.not_lt_zero j),
    h.incoming⟩
  · intro b hb
    rcases List.mem_append.1 hb with hb | hb
    · exact htook.lies b hb
    · obtain ⟨m, hm, hbrought⟩ := List.mem_filterMap.1 hb
      have hempty := hcovers.eq_nil (fun b' hb' => hmeet b' hb' b hb)
        ((h.suits m hm).within b hbrought)
      exact Block.lies_of_nil hempty a.buffer
  · rw [List.take_zero, blocksOf_nil, List.append_nil]
    exact hcovers

/-- A message read while the piece was not there counts. -/
theorem Completes.cons {done : Result Bytes × Connection}
    (h : Completes spec (taken ++ m.brought?.toList) ms rest done)
    (hlacks : ¬ Covers taken spec.length.toNat) : Completes spec taken (m :: ms) rest done := by
  obtain ⟨data, k, hok, hlength, hlies, hcovers, hfirst, hleft⟩ := h
  refine ⟨data, k + 1, hok, hlength, ?_, ?_, ?_, hleft⟩
  · rw [append_blocksOf_cons]
    exact hlies
  · rw [List.take_succ_cons, append_blocksOf_cons]
    exact hcovers
  · intro j hj
    cases j with
    | zero =>
        rw [List.take_zero, blocksOf_nil, List.append_nil]
        exact hlacks
    | succ j =>
        rw [List.take_succ_cons, append_blocksOf_cons]
        exact hfirst j (Nat.lt_of_succ_lt_succ hj)

/-- Where a part that does not read fails, the whole breaks. -/
theorem Spares.breaks {α : Type} {P : α → Prop} {first : Except PeerError α × Connection}
    {e : PeerError} {c₁ : Connection} (h : c.Spares P first) (hfirst : first = (.error e, c₁)) :
    c.Breaks (.error e, c₁) := by
  obtain ⟨rfl, hfull⟩ := h.of_error hfirst
  subst hfirst
  refine ⟨rfl, hfull, fun hall => ?_⟩
  rw [(h.takesAll hall).accepts_eq] at hfull
  cases hfull

theorem Breaks.mono {c c₁ : Connection} {done : Result Bytes × Connection} (h : c₁.Breaks done)
    (htakes : c.stream.TakesAll → c₁.stream.TakesAll) : c.Breaks done :=
  ⟨h.1, h.2.1, fun hall => h.2.2 (htakes hall)⟩

theorem fetchWithin_of_done {moments : Nat → Moment} {n k : Nat} (h : a.isDone = true) :
    c.fetchWithin moments n k a = (.ok a.buffer, c) := by
  cases n with
  | zero => rw [fetchWithin, if_pos h]
  | succ n => rw [fetchWithin, if_pos h]

/-- Fetching reads messages until the piece is there, unless a write breaks. -/
theorem fetchWithin_spec (moments : Nat → Moment) {n k : Nat} (htook : a.Took spec taken)
    (h : c.Feeds spec taken ms rest) (hmany : ms.length ≤ n) :
    Completes spec taken ms rest (c.fetchWithin moments n k a) ∨
      c.Breaks (c.fetchWithin moments n k a) := by
  -- Every turn takes one message from what is still to come and adds its block to what was taken.
  induction ms generalizing c a taken n k with
  | nil =>
      have hcovers := h.covers
      rw [blocksOf_nil, List.append_nil] at hcovers
      have hdone := (htook.isDone_iff (List.pairwise_append.1 h.apart).1).2 hcovers
      rw [fetchWithin_of_done hdone]
      exact .inl (h.completes htook hcovers)
  | cons m ms ih =>
      have hdone := htook.isDone_iff (List.pairwise_append.1 h.apart).1
      by_cases hcovers : Covers taken spec.length.toNat
      · rw [fetchWithin_of_done (hdone.2 hcovers)]
        exact .inl (h.completes htook hcovers)
      cases n with
      | zero => cases hmany
      | succ n =>
          rw [fetchWithin, if_neg (mt hdone.1 hcovers)]
          have hrequests := requestBlocks_spares (c := c) (htook.withState .requesting)
            a.spec.length.toNat
          obtain ⟨hread, hfed⟩ := (h.spared hrequests).read
          split
          next hfailed => exact .inr (hrequests.breaks hfailed)
          next a₁ c₁ hrequested =>
            rw [hrequested] at hread hfed hrequests
            have htook₁ := hrequests.of_ok rfl
            have hmessage : c₁.read none = (.ok m, (c₁.read none).2) := Prod.ext hread rfl
            have hhandled := handle_spares (c := (c₁.read none).2) (htook₁.withState .awaiting)
              (h.suits m List.mem_cons_self) (List.pairwise_append.1 hfed.apart).1
              (moments k).serve (moments k).stopwatch
            have htakes : c.stream.TakesAll → (c₁.read none).2.stream.TakesAll :=
              fun hall => (hrequests.takesAll hall).receive _ _
            rw [hmessage]
            simp only
            split
            next hfailed => exact .inr ((hhandled.breaks hfailed).mono htakes)
            next a₂ c₂ hobeyed =>
              have hnext := hfed.spared hhandled
              rw [hobeyed] at hhandled hnext
              rcases ih (k := k + 1) (hhandled.of_ok rfl) hnext (Nat.le_of_succ_le_succ hmany) with
                hcompletes | hbreaks
              · exact .inl (hcompletes.cons hcovers)
              · exact .inr (hbreaks.mono fun hall => hhandled.takesAll (htakes hall))

/-- However the peer orders and sizes the blocks of a piece and whatever else it says between them,
fetching the piece puts every block in its place, provided that the blocks do not meet and cover the
piece and that our writes go out.  It reads just as many messages as it takes to cover the piece.
A write fails only where the stream takes no more bytes. -/
theorem assembled (c : Connection) (moments : Nat → Moment) (spec : PieceSpec) (blockSize : UInt32)
    (ms : List Message) (rest : Bytes) (hreadable : ∀ m ∈ ms, m.Readable c.limit)
    (hsuits : ∀ m ∈ ms, m.Suits spec) (hapart : (blocksOf ms).Pairwise Block.Apart)
    (hcovers : Covers (blocksOf ms) spec.length.toNat)
    (hin : c.stream.incoming = ms.flatMap Frame.encode ++ rest) :
    let result := (c.fetch moments (.start spec blockSize)).1
    let after := (c.fetch moments (.start spec blockSize)).2
    let complete := ∃ data k, result = .ok data ∧ data.length = spec.length.toNat ∧
      (∀ b ∈ blocksOf ms, ∀ i < b.bytes.length, data[b.start + i]? = b.bytes[i]?) ∧
      Covers (blocksOf (ms.take k)) spec.length.toNat ∧
      (∀ j < k, ¬ Covers (blocksOf (ms.take j)) spec.length.toNat) ∧
      after.stream.incoming = (ms.drop k).flatMap Frame.encode ++ rest
    (c.stream.TakesAll → complete) ∧
      (complete ∨ result = .error (.io after.stream.refusal) ∧ after.stream.accepts 1 = 0) := by
  intro result after complete
  have hfeeds : c.Feeds spec [] ms rest := ⟨hreadable, hsuits, hapart, hcovers, hin⟩
  have hmany : ms.length ≤ c.stream.incoming.length + 1 := by
    have := length_le_flatMap_encode ms
    rw [hin, List.length_append]
    omega
  rcases fetchWithin_spec (k := 0) moments (Attempt.took_start spec blockSize) hfeeds hmany with
    ⟨data, k, hok, hlength, hlies, hread⟩ | ⟨hbroken, hfull, hnot⟩
  · have hcomplete : complete :=
      ⟨data, k, hok, hlength, fun b hb i hi => (hlies b hb).getElem? hi, hread⟩
    exact ⟨fun _ => hcomplete, .inl hcomplete⟩
  · exact ⟨fun hall => absurd hall hnot, .inr ⟨hbroken, hfull⟩⟩

/-- The second block comes first, and the peer chokes and asks in between. -/
theorem assembled_two_blocks :
    let ms : List Message := [.unchoke, .piece 3 2 [3, 4, 5], .keepAlive, .have_ 9, .choke,
      .request 0 0 4, ⟨.other 20, [1]⟩, .piece 3 0 [1, 2], .interested]
    let session : Session := .opened ⟨.short ⟨127, 0, 0, 1⟩, 6881⟩ ⟨.zero 20⟩ ⟨[]⟩ 0
    let wire : Bytes := ms.flatMap Frame.encode
    let arrivals : List Arrival := [.bytes (wire.take 9), .pause 7, .bytes (wire.drop 9)]
    let c : Connection := ⟨session, .start arrivals .closed none (some 1), 64⟩
    let spec : PieceSpec := ⟨3, .zero 20, 5⟩
    let moments (k : Nat) : Moment := ⟨fun _ => some [0, 0, 0, 0], k⟩
    (∀ m ∈ ms, m.Readable c.limit) ∧ (∀ m ∈ ms, m.Suits spec) ∧
      (blocksOf ms).Pairwise Block.Apart ∧ Covers (blocksOf ms) spec.length.toNat ∧
      c.stream.incoming = ms.flatMap Frame.encode ++ [] ∧ c.stream.TakesAll ∧
      ∃ data k, (c.fetch moments (.start spec 2)).1 = .ok data ∧ data.length = spec.length.toNat ∧
        (∀ b ∈ blocksOf ms, ∀ i < b.bytes.length, data[b.start + i]? = b.bytes[i]?) ∧
        Covers (blocksOf (ms.take k)) spec.length.toNat ∧
        (∀ j < k, ¬ Covers (blocksOf (ms.take j)) spec.length.toNat) ∧
        (c.fetch moments (.start spec 2)).2.stream.incoming =
          (ms.drop k).flatMap Frame.encode ++ [] := by
  intro ms session wire arrivals c spec moments
  have hreadable : ∀ m ∈ ms, m.Readable c.limit := by
    intro m hm
    simp only [ms, List.mem_cons, List.not_mem_nil, or_false] at hm
    rcases hm with rfl | rfl | rfl | rfl | rfl | rfl | rfl | rfl | rfl
    case inr.inr.inl => exact .inl rfl
    case inr.inr.inr.inr.inr.inr.inl =>
      refine .inr ⟨nofun, fun id hid hother => ?_, by decide⟩
      cases hother
      exact absurd hid (by decide)
    all_goals exact .inr ⟨nofun, nofun, by decide⟩
  have hsuits : ∀ m ∈ ms, m.Suits spec := by
    intro m hm
    simp only [ms, List.mem_cons, List.not_mem_nil, or_false] at hm
    rcases hm with rfl | rfl | rfl | rfl | rfl | rfl | rfl | rfl | rfl
    case inr.inl | inr.inr.inr.inr.inr.inr.inr.inl =>
      refine ⟨nofun, nofun, fun _ => by decide, fun _ => by decide, ?_⟩
      rintro b ⟨⟩
      decide
    all_goals exact ⟨by decide, by decide, nofun, nofun, nofun⟩
  have hblocks : blocksOf ms = [⟨2, [3, 4, 5]⟩, ⟨0, [1, 2]⟩] := by rfl
  have hapart : (blocksOf ms).Pairwise Block.Apart := by
    rw [hblocks]
    refine List.pairwise_pair.2 fun p hfirst hsecond => ?_
    rw [Block.mem_positions] at hfirst hsecond
    exact absurd (Nat.lt_of_le_of_lt hfirst.1 hsecond.2) (by decide)
  have hcovers : Covers (blocksOf ms) spec.length.toNat := by
    rw [hblocks]
    unfold Covers
    decide
  have hin : c.stream.incoming = ms.flatMap Frame.encode ++ [] := by decide +kernel
  have htakes : c.stream.TakesAll := ⟨rfl, nofun, rfl⟩
  exact ⟨hreadable, hsuits, hapart, hcovers, hin, htakes,
    (assembled c moments spec 2 ms [] hreadable hsuits hapart hcovers hin).1 htakes⟩

end Connection

end Torrent
