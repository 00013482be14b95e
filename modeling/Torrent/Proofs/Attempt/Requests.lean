import Mathlib.Algebra.Ring.Nat
import Torrent.Proofs.Attempt.Taken

/-!
# Requests that wait for their blocks

An attempt asks for a piece in order, block by block, and its requests may be
answered in any order.  `Attempt.Awaits` says where it stands when only right
blocks come: every position that was asked for waits for its block or has its
byte, and the backlog is the number of requests that wait.

Asking and receiving keep this (`Attempt.Awaits.requests`,
`Attempt.Awaits.received`), and every block that comes leaves one less to come
(`Attempt.blocksLeft`), so the piece is there when all have come
(`Attempt.Awaits.isDone_iff`).
-/

namespace Torrent

/-- The block of a piece that a request is for. -/
def BlockRequest.block (r : BlockRequest) (data : Bytes) : Bytes :=
  data.stretch r.start.toNat r.length.toNat

/-- The message that answers a request with the data of its piece. -/
def BlockRequest.reply (r : BlockRequest) (data : Bytes) : Message :=
  .piece r.index r.start (r.block data)

section

variable {spec : PieceSpec} {data : Bytes} {r : BlockRequest}

theorem BlockRequest.length_block (h : r.start.toNat + r.length.toNat ≤ data.length) :
    (r.block data).length = r.length.toNat := by
  simp only [block, Bytes.stretch]
  rw [List.length_take, List.length_drop]
  omega

/-- The reply to a request for a stretch of the piece brings its block. -/
theorem BlockRequest.suits_reply (hindex : r.index = spec.index)
    (hdata : data.length = spec.length.toNat)
    (hend : r.start.toNat + r.length.toNat ≤ spec.length.toNat) :
    (r.reply data).brought? = some ⟨r.start.toNat, r.block data⟩ ∧ (r.reply data).Suits spec := by
  have hfits : r.start.toNat + (r.block data).length ≤ spec.length.toNat := by
    rw [length_block (hdata ▸ hend)]
    exact hend
  refine ⟨Message.brought?_piece _ _ _, ?_⟩
  rw [reply, hindex]
  exact Message.suits_piece hfits

end

namespace Attempt

/-- The next requests that go out, at most `n` of them. -/
def requests (a : Attempt) (s : Session) : Nat → List BlockRequest
  | 0 => []
  | n + 1 =>
    match a.nextRequest? s with
    | none => []
    | some r => r :: (a.afterRequest r).requests s n

/-- How many blocks are still to come when so many were asked for. -/
def blocksLeft (a : Attempt) (waiting : Nat) : Nat :=
  (a.spec.length.toNat - a.requested.toNat + (a.blockSize.toNat - 1)) / a.blockSize.toNat + waiting

/-- An attempt at a piece with this data for which some requests wait. -/
structure Awaits (spec : PieceSpec) (data : Bytes) (waiting : List BlockRequest) (a : Attempt) :
    Prop where
  spec_eq : a.spec = spec
  blockSize_pos : 0 < a.blockSize.toNat
  blockSize_le : a.blockSize.toNat ≤ longestServed.toNat
  data_length : data.length = spec.length.toNat
  room : a.buffer.length = spec.length.toNat
  requested_le : a.requested.toNat ≤ spec.length.toNat
  backlog_eq : a.backlog.toNat = waiting.length
  count : a.downloaded.toNat + (waiting.map fun r => r.length.toNat).sum = a.requested.toNat
  /-- What waits is a stretch of the piece that was asked for, and no longer than a block. -/
  stretch : ∀ r ∈ waiting, r.index = spec.index ∧ 0 < r.length.toNat ∧
    r.length.toNat ≤ a.blockSize.toNat ∧ r.start.toNat + r.length.toNat ≤ a.requested.toNat
  /-- What was asked for waits or is there. -/
  filled : ∀ p < a.requested.toNat,
    (∃ r ∈ waiting, r.start.toNat ≤ p ∧ p < r.start.toNat + r.length.toNat) ∨
      a.buffer[p]? = data[p]?

variable {spec : PieceSpec} {data : Bytes} {waiting : List BlockRequest} {a : Attempt}
  {r : BlockRequest} {s : Session}

theorem blockSize_start {blockSize : UInt32} (h : 1 ≤ blockSize.toNat) :
    (start spec blockSize).blockSize = blockSize := by
  have hne : blockSize ≠ 0 := by
    rintro rfl
    exact absurd h (by decide)
  simp only [start]
  rw [if_neg hne]

theorem awaits_start {blockSize : UInt32} (hpos : 1 ≤ blockSize.toNat)
    (hle : blockSize.toNat ≤ longestServed.toNat) (hlength : data.length = spec.length.toNat) :
    (start spec blockSize).Awaits spec data [] where
  spec_eq := rfl
  blockSize_pos := by
    rw [blockSize_start hpos]
    exact hpos
  blockSize_le := by
    rw [blockSize_start hpos]
    exact hle
  data_length := hlength
  room := Bytes.length_zeros _
  requested_le := Nat.zero_le _
  backlog_eq := rfl
  count := rfl
  stretch := by simp only [List.not_mem_nil, false_implies, implies_true]
  filled := fun p hp => absurd hp (Nat.not_lt_zero p)

theorem Awaits.withState (h : a.Awaits spec data waiting) (state : AttemptState) :
    ({ a with state := state } : Attempt).Awaits spec data waiting :=
  ⟨h.spec_eq, h.blockSize_pos, h.blockSize_le, h.data_length, h.room, h.requested_le, h.backlog_eq,
    h.count, h.stretch, h.filled⟩

/-- The order in which requests wait does not matter. -/
theorem Awaits.perm {waiting' : List BlockRequest} (h : a.Awaits spec data waiting)
    (hperm : waiting.Perm waiting') : a.Awaits spec data waiting' where
  spec_eq := h.spec_eq
  blockSize_pos := h.blockSize_pos
  blockSize_le := h.blockSize_le
  data_length := h.data_length
  room := h.room
  requested_le := h.requested_le
  backlog_eq := h.backlog_eq.trans hperm.length_eq
  count := by
    rw [← (hperm.map fun r => r.length.toNat).sum_nat]
    exact h.count
  stretch := fun r hr => h.stretch r (hperm.mem_iff.2 hr)
  filled := by
    intro p hp
    refine (h.filled p hp).imp_left fun ⟨r, hr, hin⟩ => ?_
    exact ⟨r, hperm.mem_iff.1 hr, hin⟩

/-! ## Asking -/

/-- What the next request is for: the block behind what was asked for, shorter only at the end of
the piece. -/
theorem nextRequest?_eq_some (h : a.nextRequest? s = some r) :
    a.requested.toNat < a.spec.length.toNat ∧ a.backlog.toNat < s.window.toNat ∧
      r.index = a.spec.index ∧ r.start = a.requested ∧
      r.length.toNat = min a.blockSize.toNat (a.spec.length.toNat - a.requested.toNat) := by
  rw [nextRequest?] at h
  split at h
  next hmay =>
    cases h
    obtain ⟨-, hleft, hbacklog⟩ := hmay
    have hsub : (a.spec.length - a.requested).toNat = a.spec.length.toNat - a.requested.toNat :=
      UInt32.toNat_sub_of_le _ _ (UInt32.le_of_lt hleft)
    refine ⟨UInt32.lt_iff_toNat_lt.1 hleft, UInt32.lt_iff_toNat_lt.1 hbacklog, rfl, rfl, ?_⟩
    dsimp only
    split
    next hle =>
      rw [UInt32.le_iff_toNat_le, hsub] at hle
      exact (Nat.min_eq_left hle).symm
    next hgt =>
      rw [UInt32.le_iff_toNat_le, hsub] at hgt
      rw [hsub, Nat.min_eq_right (Nat.le_of_not_le hgt)]
  next => cases h

/-- When all was asked for, nothing is asked for any more. -/
theorem nextRequest?_of_all (h : a.spec.length.toNat ≤ a.requested.toNat) :
    a.nextRequest? s = none := by
  refine Option.eq_none_iff_forall_not_mem.2 fun r hr => ?_
  exact absurd (nextRequest?_eq_some hr).1 (Nat.not_lt.2 h)

/-- A request that goes out is counted, and neither count wraps. -/
theorem toNat_afterRequest (h : a.nextRequest? s = some r) :
    (a.afterRequest r).requested.toNat = a.requested.toNat + r.length.toNat ∧
      (a.afterRequest r).backlog.toNat = a.backlog.toNat + 1 := by
  obtain ⟨hleft, hbacklog, -, -, hlength⟩ := nextRequest?_eq_some h
  have hend := a.spec.length.toNat_lt
  have hwindow := s.window.toNat_lt
  constructor
  · show (a.requested + r.length).toNat = _
    rw [UInt32.toNat_add]
    exact Nat.mod_eq_of_lt (by omega)
  · show (a.backlog + 1).toNat = _
    rw [UInt32.toNat_add]
    exact Nat.mod_eq_of_lt (by simp; omega)

theorem choked_of_nextRequest?_eq_some (h : a.nextRequest? s = some r) : s.choked = false := by
  rw [nextRequest?] at h
  split at h
  next hmay => exact hmay.1
  next => cases h

/-- No request goes out while the peer chokes us, when all was asked for, or when as many wait as
the window allows. -/
theorem nextRequest?_eq_none (h : a.nextRequest? s = none) (hchoked : s.choked = false) :
    a.spec.length.toNat ≤ a.requested.toNat ∨ s.window.toNat ≤ a.backlog.toNat := by
  rw [nextRequest?] at h
  split at h
  next => cases h
  next hnot =>
    by_contra hmay
    refine hnot ⟨hchoked, ?_, ?_⟩
    · rw [UInt32.lt_iff_toNat_lt]
      omega
    · rw [UInt32.lt_iff_toNat_lt]
      omega

/-- A block taken from the front, a whole one or all that is left, leaves one block less. -/
theorem blocks_take {size left : Nat} (hsize : 0 < size) (hleft : 0 < left) :
    (left - min size left + (size - 1)) / size + 1 = (left + (size - 1)) / size := by
  by_cases hwhole : size ≤ left
  · have hrest : left - size + (size - 1) + size = left + (size - 1) := by omega
    rw [Nat.min_eq_left hwhole, ← Nat.add_div_right _ hsize, hrest]
  · have hrest : left + (size - 1) = left - 1 + size := by omega
    rw [Nat.min_eq_right (Nat.le_of_not_le hwhole), Nat.sub_self, Nat.zero_add, hrest,
      Nat.add_div_right _ hsize, Nat.div_eq_of_lt (by omega), Nat.div_eq_of_lt (by omega)]

/-- A request that goes out waits, and leaves as many blocks to come as before. -/
theorem Awaits.asked (h : a.Awaits spec data waiting) (hr : a.nextRequest? s = some r) :
    (a.afterRequest r).Awaits spec data (waiting ++ [r]) ∧
      (a.afterRequest r).blocksLeft (waiting ++ [r]).length = a.blocksLeft waiting.length := by
  obtain ⟨hleft, hbacklog, hindex, hstart, hlength⟩ := nextRequest?_eq_some hr
  obtain ⟨hrequested, hmore⟩ := toNat_afterRequest hr
  have hpos := h.blockSize_pos
  refine ⟨⟨h.spec_eq, hpos, h.blockSize_le, h.data_length, h.room, ?_, ?_, ?_, ?_, ?_⟩, ?_⟩
  · rw [hrequested, ← h.spec_eq]
    omega
  · rw [hmore, h.backlog_eq, List.length_append, List.length_singleton]
  · have hcount := h.count
    rw [hrequested, List.map_append, List.sum_append, List.map_singleton, List.sum_singleton]
    show a.downloaded.toNat + _ = _
    omega
  · intro r' hr'
    rw [hrequested]
    rcases List.mem_append.1 hr' with hr' | hr'
    · obtain ⟨hindex', hpos', hle', hend'⟩ := h.stretch r' hr'
      exact ⟨hindex', hpos', hle', by omega⟩
    · obtain rfl := List.mem_singleton.1 hr'
      refine ⟨hindex.trans (congrArg PieceSpec.index h.spec_eq), by omega, ?_, ?_⟩
      · show r'.length.toNat ≤ a.blockSize.toNat
        omega
      · exact Nat.le_of_eq (by rw [hstart])
  · intro p hp
    rw [hrequested] at hp
    by_cases hold : p < a.requested.toNat
    · refine (h.filled p hold).imp_left fun ⟨r', hr', hin⟩ => ?_
      exact ⟨r', List.mem_append_left _ hr', hin⟩
    · refine .inl ⟨r, List.mem_append_right _ (List.mem_singleton_self r), ?_, ?_⟩
      · rw [hstart]
        omega
      · rw [hstart]
        exact hp
  · have hrest : (a.afterRequest r).spec.length.toNat - (a.afterRequest r).requested.toNat =
        a.spec.length.toNat - a.requested.toNat - r.length.toNat := by
      show a.spec.length.toNat - _ = _
      rw [hrequested, Nat.sub_add_eq]
    have hblocks := blocks_take hpos (Nat.sub_pos_of_lt hleft)
    simp only [blocksLeft]
    rw [hrest, hlength, List.length_append, List.length_singleton]
    show (_ + (a.blockSize.toNat - 1)) / a.blockSize.toNat + _ = _
    omega

/-- All requests that go out wait, and as many blocks are to come as before. -/
theorem Awaits.requests (h : a.Awaits spec data waiting) (s : Session) (n : Nat) :
    ((a.requests s n).foldl afterRequest a).Awaits spec data (waiting ++ a.requests s n) ∧
      ((a.requests s n).foldl afterRequest a).blocksLeft (waiting ++ a.requests s n).length =
        a.blocksLeft waiting.length := by
  induction n generalizing a waiting with
  | zero =>
      rw [Attempt.requests, List.append_nil]
      exact ⟨h, rfl⟩
  | succ n ih =>
      rw [Attempt.requests]
      split
      next =>
        rw [List.append_nil]
        exact ⟨h, rfl⟩
      next r hr =>
        obtain ⟨hasked, hleft⟩ := h.asked hr
        obtain ⟨hawaits, hsame⟩ := ih hasked
        rw [List.append_cons, List.foldl_cons]
        exact ⟨hawaits, hsame.trans hleft⟩

/-- Requests go out until none may. -/
theorem Awaits.nextRequest?_requests (h : a.Awaits spec data waiting) (s : Session) {n : Nat}
    (hn : spec.length.toNat - a.requested.toNat ≤ n) :
    ((a.requests s n).foldl afterRequest a).nextRequest? s = none := by
  induction n generalizing a waiting with
  | zero =>
      rw [Attempt.requests, List.foldl_nil]
      refine nextRequest?_of_all ?_
      rw [h.spec_eq]
      omega
  | succ n ih =>
      rw [Attempt.requests]
      split
      next hnone => exact hnone
      next r hr =>
        obtain ⟨hasked, -⟩ := h.asked hr
        obtain ⟨hleft, -, -, -, hlength⟩ := nextRequest?_eq_some hr
        have hpos := h.blockSize_pos
        have hcount := hasked.count
        have hcount' := h.count
        rw [List.map_append, List.sum_append, List.map_singleton, List.sum_singleton] at hcount
        have hsame : (a.afterRequest r).downloaded.toNat = a.downloaded.toNat := rfl
        exact ih hasked (by omega)

/-! ## Being done -/

/-- An attempt is done exactly when no block is to come any more. -/
theorem Awaits.isDone_iff (h : a.Awaits spec data waiting) :
    a.isDone = true ↔ a.blocksLeft waiting.length = 0 := by
  have hcount := h.count
  have hle := h.requested_le
  have hpos := h.blockSize_pos
  have hdone : a.isDone = true ↔ spec.length.toNat ≤ a.downloaded.toNat := by
    rw [isDone, decide_eq_true_iff, h.spec_eq, UInt32.le_iff_toNat_le]
  rw [hdone, blocksLeft, h.spec_eq]
  constructor
  · intro hall
    have hnone : waiting = [] := by
      cases waiting with
      | nil => rfl
      | cons r rest =>
          have hlength := (h.stretch r List.mem_cons_self).2.1
          rw [List.map_cons, List.sum_cons] at hcount
          omega
    have hrest : spec.length.toNat - a.requested.toNat + (a.blockSize.toNat - 1) <
        a.blockSize.toNat := by
      omega
    rw [hnone, Nat.div_eq_of_lt hrest]
    rfl
  · intro hleft
    obtain ⟨hblocks, hwaiting⟩ := Nat.add_eq_zero_iff.1 hleft
    have hsmall := (Nat.div_eq_zero_iff_lt hpos).1 hblocks
    rw [List.eq_nil_of_length_eq_zero hwaiting] at hcount
    simp only [List.map_nil, List.sum_nil] at hcount
    omega

/-- An attempt that is done waits for nothing and has the data. -/
theorem Awaits.of_isDone (h : a.Awaits spec data waiting) (hdone : a.isDone = true) :
    waiting = [] ∧ a.buffer = data := by
  have hleft := h.isDone_iff.1 hdone
  obtain ⟨hblocks, hwaiting⟩ := Nat.add_eq_zero_iff.1 hleft
  have hnone := List.eq_nil_of_length_eq_zero hwaiting
  refine ⟨hnone, List.ext_getElem? fun p => ?_⟩
  have hsmall := (Nat.div_eq_zero_iff_lt h.blockSize_pos).1 hblocks
  have hle := h.requested_le
  have hpos := h.blockSize_pos
  rw [h.spec_eq] at hsmall
  by_cases hp : p < spec.length.toNat
  · rcases h.filled p (by omega) with ⟨r, hr, -⟩ | hbyte
    · rw [hnone] at hr
      cases hr
    · exact hbyte
  · have hroom := h.room
    have hlength := h.data_length
    rw [List.getElem?_eq_none (by omega), List.getElem?_eq_none (by omega)]

/-- An attempt that is not done, and that the peer lets ask, waits for a block once all requests
that may go out are out. -/
theorem Awaits.waiting_ne_nil (h : a.Awaits spec data waiting) (hnone : a.nextRequest? s = none)
    (hchoked : s.choked = false) (hwindow : 0 < s.window.toNat) (hdone : a.isDone = false) :
    waiting ≠ [] := by
  rintro rfl
  have hcount := h.count
  simp only [List.map_nil, List.sum_nil] at hcount
  have hmissing : a.downloaded.toNat < spec.length.toNat := by
    have hnot : ¬ a.spec.length ≤ a.downloaded := of_decide_eq_false hdone
    rw [UInt32.le_iff_toNat_le, h.spec_eq] at hnot
    omega
  have hbacklog := h.backlog_eq
  rcases nextRequest?_eq_none hnone hchoked with hall | hfull
  · rw [h.spec_eq] at hall
    omega
  · rw [List.length_nil] at hbacklog
    omega

/-! ## Receiving -/

/-- A block that suits the piece is laid in its place and recorded. -/
theorem handle_brought {m : Message} {b : Block} (hsuits : m.Suits a.spec)
    (hroom : a.buffer.length = a.spec.length.toNat) (hb : m.brought? = some b) (s : Session)
    (now : Nat) :
    a.handle s now m = .ok (a.afterBlock b, s.recordBlock b.bytes.length now, none) := by
  have hkind : m.kind = .piece := by
    by_contra hkind
    cases (Message.brought?_eq_none hkind).symm.trans hb
  obtain ⟨b', hb', hcopy⟩ := hsuits.copyBlock hkind hroom
  rw [hb] at hb'
  cases hb'
  simp only [handle, hkind, hcopy]
  rfl

/-- The reply to a request that waits is obeyed.  Its block is there then, and one block less is to
come. -/
theorem Awaits.received (h : a.Awaits spec data (r :: waiting)) (s : Session) (now : Nat) :
    ∃ a', a.handle s now (r.reply data) =
        .ok (a', s.recordBlock (r.block data).length now, none) ∧
      a'.Awaits spec data waiting ∧
      a'.blocksLeft waiting.length + 1 = a.blocksLeft (r :: waiting).length := by
  obtain rfl := h.spec_eq
  obtain ⟨hindex, -, -, hend⟩ := h.stretch r List.mem_cons_self
  have hle := h.requested_le
  have hdata := h.data_length
  obtain ⟨hbrought, hsuits⟩ := BlockRequest.suits_reply hindex hdata (by omega)
  have hlength : (r.block data).length = r.length.toNat :=
    BlockRequest.length_block (by omega)
  have hfits : r.start.toNat + (r.block data).length ≤ a.buffer.length := by
    rw [hlength, h.room]
    omega
  refine ⟨_, handle_brought hsuits h.room hbrought s now,
    ⟨rfl, h.blockSize_pos, h.blockSize_le, hdata, (Bytes.length_overlay hfits).trans h.room, hle,
      ?_, ?_, ?_, ?_⟩, rfl⟩
  · have hwait := h.backlog_eq
    rw [List.length_cons] at hwait
    have hone : (1 : UInt32) ≤ a.backlog := by
      rw [UInt32.le_iff_toNat_le, hwait]
      exact Nat.le_add_left 1 _
    have hne : a.backlog ≠ 0 := by
      intro hzero
      rw [hzero] at hwait
      cases hwait
    show (oneAnswered a.backlog).toNat = _
    rw [oneAnswered, if_neg hne, UInt32.toNat_sub_of_le _ _ hone, hwait]
    rfl
  · have hcount := h.count
    have hlt := a.requested.toNat_lt
    rw [List.map_cons, List.sum_cons] at hcount
    show (a.downloaded + UInt32.ofNat (r.block data).length).toNat + _ = a.requested.toNat
    rw [hlength, UInt32.ofNat_toNat, UInt32.toNat_add, Nat.mod_eq_of_lt (by omega)]
    omega
  · exact fun r' hr' => h.stretch r' (List.mem_cons_of_mem r hr')
  · intro p hp
    show _ ∨ (a.buffer.overlay r.start.toNat (r.block data))[p]? = data[p]?
    rw [Block.getElem?_overlay (b := ⟨r.start.toNat, r.block data⟩) hfits]
    by_cases hin : r.start.toNat ≤ p ∧ p < r.start.toNat + r.length.toNat
    · have hget := List.getElem?_eq_getElem (show p < data.length by omega)
      have hsame : r.start.toNat + (p - r.start.toNat) = p := by omega
      rw [Block.byteAt?, if_pos hin.1]
      simp only [BlockRequest.block]
      rw [Bytes.getElem?_stretch, if_pos (by omega), hsame, hget]
      exact .inr rfl
    · have hout : (⟨r.start.toNat, r.block data⟩ : Block).byteAt? p = none := by
        rw [Block.byteAt?_eq_none_iff, Block.mem_positions, hlength]
        exact hin
      rw [hout, Option.none_or]
      refine (h.filled p hp).imp_left ?_
      rintro ⟨r', hr', hin'⟩
      rcases List.mem_cons.1 hr' with rfl | hr'
      · exact absurd hin' hin
      · exact ⟨r', hr', hin'⟩

end Attempt

end Torrent
