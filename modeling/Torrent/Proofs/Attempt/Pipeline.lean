import Torrent.Proofs.Attempt.Course

/-!
# The requests of an attempt

A piece has one tiling with blocks of a size (`Tiling`): they lie one behind the other,
and only the last may be shorter.  The requests of an attempt are the front of that
tiling, whatever the peer says and however its window changes
(`Connection.request_pipeline`).

`Course.Paced` is the invariant: whatever tiles the rest of the piece completes what was
asked for to the tiling of the piece.
-/

namespace Torrent

/-! ## Tilings -/

/-- Stretches of a piece from a position to its end, one behind the other: blocks of one size, and
at the end what is left. -/
inductive Tiling (spec : PieceSpec) (size : Nat) : Nat → List BlockRequest → Prop
  | done : Tiling spec size spec.length.toNat []
  | tile {start : Nat} {r : BlockRequest} {rest : List BlockRequest}
    (hindex : r.index = spec.index) (hstart : r.start.toNat = start)
    (hleft : start < spec.length.toNat)
    (hlength : r.length.toNat = min size (spec.length.toNat - start))
    (hrest : Tiling spec size (start + r.length.toNat) rest) : Tiling spec size start (r :: rest)

namespace Tiling

variable {spec : PieceSpec} {size start : Nat} {tiles : List BlockRequest}

theorem exists_tiling (hsize : 0 < size) (hstart : start ≤ spec.length.toNat) :
    ∃ tiles, Tiling spec size start tiles := by
  -- every tile leaves less of the piece
  induction hleft : spec.length.toNat - start using Nat.strongRecOn generalizing start with
  | ind left ih =>
      by_cases hend : start = spec.length.toNat
      · subst hend
        exact ⟨[], .done⟩
      have hword := spec.length.toNat_lt
      have hnat : (UInt32.ofNat start).toNat = start :=
        UInt32.toNat_ofNat_of_lt' (Nat.lt_of_le_of_lt hstart hword)
      have hlength : (UInt32.ofNat (min size (spec.length.toNat - start))).toNat =
          min size (spec.length.toNat - start) :=
        UInt32.toNat_ofNat_of_lt' (Nat.lt_of_le_of_lt (by omega) hword)
      obtain ⟨rest, hrest⟩ :=
        ih (spec.length.toNat - (start + min size (spec.length.toNat - start)))
          (by omega) (by omega) rfl
      exact ⟨_ :: rest, .tile (r := ⟨spec.index, .ofNat start, .ofNat _⟩) rfl hnat (by omega)
        hlength (hlength.symm ▸ hrest)⟩

theorem unique {tiles' : List BlockRequest} (h : Tiling spec size start tiles)
    (h' : Tiling spec size start tiles') : tiles = tiles' := by
  induction h generalizing tiles' with
  | done =>
      cases h' with
      | done => rfl
      | tile hindex hstart hleft => exact absurd hleft (Nat.lt_irrefl _)
  | @tile start r rest hindex hstart hleft hlength hrest ih =>
      cases h' with
      | done => exact absurd hleft (Nat.lt_irrefl _)
      | @tile _ r' rest' hindex' hstart' hleft' hlength' hrest' =>
          obtain rfl : r = r' := by
            cases r
            cases r'
            simp only [BlockRequest.mk.injEq]
            exact ⟨hindex.trans hindex'.symm, UInt32.toNat_inj.1 (hstart.trans hstart'.symm),
              UInt32.toNat_inj.1 (hlength.trans hlength'.symm)⟩
          rw [ih hrest']

/-- The tiles lie one behind the other. -/
theorem pairwise (h : Tiling spec size start tiles) :
    (∀ r ∈ tiles, start ≤ r.start.toNat) ∧
      tiles.Pairwise fun r r' => r.start.toNat + r.length.toNat ≤ r'.start.toNat := by
  induction h with
  | done => exact ⟨by simp, .nil⟩
  | @tile start r rest hindex hstart hleft hlength hrest ih =>
      obtain ⟨hbehind, hpairwise⟩ := ih
      refine ⟨fun r' hr' => ?_, List.pairwise_cons.2 ⟨fun r' hr' => ?_, hpairwise⟩⟩
      · rcases List.mem_cons.1 hr' with rfl | hr'
        · exact Nat.le_of_eq hstart.symm
        · exact Nat.le_trans (Nat.le_add_right _ _) (hbehind r' hr')
      · rw [hstart]
        exact hbehind r' hr'

end Tiling

/-! ## Requests along a course -/

namespace Course

variable {spec : PieceSpec} {size : Nat} {x y : Course}

/-- The requests that went out tile the front of the piece. -/
structure Paced (spec : PieceSpec) (size : Nat) (x : Course) : Prop where
  spec_eq : x.attempt.spec = spec
  fitted : x.Fitted
  blockSize_eq : x.attempt.blockSize.toNat = size
  requested_le : x.attempt.requested.toNat ≤ spec.length.toNat
  count : x.attempt.requested.toNat = (x.asked.map fun r => r.length.toNat).sum
  /-- What tiles the rest of the piece tiles the piece behind them. -/
  tiled : ∀ rest, Tiling spec size x.attempt.requested.toNat rest →
    Tiling spec size 0 (x.asked ++ rest)

theorem paced_start (s : Session) (spec : PieceSpec) (blockSize : UInt32) :
    (start s spec blockSize).Paced spec (max 1 blockSize.toNat) where
  spec_eq := rfl
  fitted := fitted_start s spec blockSize
  blockSize_eq := by
    show (if blockSize = 0 then 1 else blockSize : UInt32).toNat = _
    split
    next hzero =>
      subst hzero
      rfl
    next hpos =>
      have hne : blockSize.toNat ≠ 0 := fun h0 => hpos (UInt32.toNat_inj.1 h0)
      omega
  requested_le := Nat.zero_le _
  count := rfl
  tiled := fun _ h => h

theorem Paced.asks (h : x.Paced spec size) {r : BlockRequest}
    (hr : x.attempt.nextRequest? x.session = some r) :
    x.attempt.requested.toNat + r.length.toNat ≤ spec.length.toNat ∧
      ∀ rest, Tiling spec size (x.attempt.requested.toNat + r.length.toNat) rest →
        Tiling spec size 0 (x.asked ++ r :: rest) := by
  obtain ⟨hleft, -, hindex, hstart, hlength⟩ := Attempt.nextRequest?_eq_some hr
  rw [h.spec_eq] at hleft hindex hlength
  rw [h.blockSize_eq] at hlength
  refine ⟨by omega, fun rest hrest => h.tiled _ (.tile hindex ?_ hleft hlength hrest)⟩
  rw [hstart]

/-- What neither asks nor changes what was asked for keeps the pace. -/
theorem Paced.same (h : x.Paced spec size) (hfitted : y.Fitted)
    (hspec : y.attempt.spec = x.attempt.spec) (hblock : y.attempt.blockSize = x.attempt.blockSize)
    (hrequested : y.attempt.requested = x.attempt.requested) (hasked : y.asked = x.asked) :
    y.Paced spec size where
  spec_eq := hspec.trans h.spec_eq
  fitted := hfitted
  blockSize_eq := hblock ▸ h.blockSize_eq
  requested_le := hrequested ▸ h.requested_le
  count := by
    rw [hrequested, hasked]
    exact h.count
  tiled := by
    rw [hrequested, hasked]
    exact h.tiled

theorem Paced.step (h : x.Paced spec size) (hstep : x.Step y) : y.Paced spec size := by
  have hfitted := hstep.fitted h.fitted
  cases hstep.effect h.fitted with
  | asks r hr hattempt hasked =>
      obtain ⟨hle, htiles⟩ := h.asks hr
      obtain ⟨hrequested, -⟩ := Attempt.toNat_afterRequest hr
      rw [← hattempt] at hrequested
      refine ⟨?_, hfitted, ?_, hrequested.symm ▸ hle, ?_, fun rest hrest => ?_⟩
      · rw [hattempt]
        exact h.spec_eq
      · rw [hattempt]
        exact h.blockSize_eq
      · rw [hrequested, hasked, List.map_append, List.sum_append, h.count]
        rfl
      · rw [hrequested] at hrest
        rw [hasked, List.append_assoc]
        exact htiles rest hrest
  | obeys m hsuits hattempt hasked =>
      obtain ⟨hspec, hblock, hrequested, -⟩ := fitted_afterMessage h.fitted hsuits
      rw [← hattempt] at hspec hblock hrequested
      exact h.same hfitted hspec hblock hrequested hasked
  | passes state hattempt hasked =>
      exact h.same hfitted (by rw [hattempt]) (by rw [hattempt]) (by rw [hattempt]) hasked

theorem Paced.reaches (h : x.Paced spec size) (hreaches : x.Reaches y) : y.Paced spec size := by
  induction hreaches with
  | refl => exact h
  | tail _ hstep ih => exact ih.step hstep

/-- What was asked for is the front of the tiling. -/
theorem Paced.asked_prefix (h : x.Paced spec size) (hsize : 0 < size) {tiles : List BlockRequest}
    (htiles : Tiling spec size 0 tiles) : x.asked <+: tiles := by
  obtain ⟨rest, hrest⟩ := Tiling.exists_tiling hsize h.requested_le
  exact ⟨rest, (h.tiled rest hrest).unique htiles⟩

end Course

/-! ## One call -/

/-- A request leaves less to ask for. -/
theorem Attempt.left_afterRequest {a : Attempt} {s : Session} {r : BlockRequest} {n : Nat}
    (hsize : 0 < a.blockSize.toNat) (hr : a.nextRequest? s = some r)
    (hn : a.spec.length.toNat - a.requested.toNat ≤ n + 1) :
    (a.afterRequest r).spec.length.toNat - (a.afterRequest r).requested.toNat ≤ n := by
  obtain ⟨hrequested, -⟩ := Attempt.toNat_afterRequest hr
  obtain ⟨hleft, -, -, -, hlength⟩ := Attempt.nextRequest?_eq_some hr
  rw [hrequested]
  show a.spec.length.toNat - _ ≤ n
  omega

namespace Connection

variable {a a' : Attempt} {c c' : Connection} {n k : Nat}

/-- Asking ends by itself: a bound on the number of requests that is no lower than what is left
makes no difference. -/
theorem requestBlocks_enough (hsize : 0 < a.blockSize.toNat)
    (hn : a.spec.length.toNat - a.requested.toNat ≤ n) (hk : n ≤ k) :
    c.requestBlocks a k = c.requestBlocks a n := by
  induction n generalizing c a k with
  | zero =>
      have hnone : a.nextRequest? c.session = none := Attempt.nextRequest?_of_all (by omega)
      cases k with
      | zero => rfl
      | succ k =>
          simp only [requestBlocks, hnone]
  | succ n ih =>
      obtain ⟨k, rfl⟩ := Nat.exists_eq_add_of_le' (Nat.le_trans (Nat.succ_pos n) hk)
      rw [requestBlocks, requestBlocks]
      cases hr : a.nextRequest? c.session with
      | none => rfl
      | some r =>
          dsimp only
          split
          next => rfl
          next => exact ih hsize (Attempt.left_afterRequest hsize hr hn) (Nat.le_of_succ_le_succ hk)

/-- Asking that succeeds ends where nothing may be asked for any more. -/
theorem requestBlocks_stops (hsize : 0 < a.blockSize.toNat)
    (hle : a.requested.toNat ≤ a.spec.length.toNat)
    (hn : a.spec.length.toNat - a.requested.toNat ≤ n) (h : c.requestBlocks a n = (.ok a', c')) :
    a'.spec = a.spec ∧ a'.requested.toNat ≤ a.spec.length.toNat ∧
      a'.nextRequest? c'.session = none := by
  induction n generalizing c a with
  | zero =>
      cases h
      exact ⟨rfl, hle, Attempt.nextRequest?_of_all (by omega)⟩
  | succ n ih =>
      rw [requestBlocks] at h
      split at h
      next hnone =>
        cases h
        exact ⟨rfl, hle, hnone⟩
      next r hr =>
        obtain ⟨hrequested, -⟩ := Attempt.toNat_afterRequest hr
        obtain ⟨hleft, -, -, -, hlength⟩ := Attempt.nextRequest?_eq_some hr
        split at h
        next => cases h
        next =>
          refine ih (a := a.afterRequest r) hsize ?_ (Attempt.left_afterRequest hsize hr hn) h
          show (a.afterRequest r).requested.toNat ≤ a.spec.length.toNat
          omega

/-- The requests of an attempt are the front of the one tiling of its piece, whatever the peer says
and however the window changes.  Each goes out while the session is not choked and the backlog is
below the window; the lengths are counted, and no count wraps.  Asking ends by itself, and if
nothing fails where it must not go on.  What fetching a piece writes is what goes out in such a
course. -/
theorem request_pipeline (spec : PieceSpec) (blockSize : UInt32) :
    ∃ tiles : List BlockRequest,
      (∀ tiles', Tiling spec (max 1 blockSize.toNat) 0 tiles' ↔ tiles' = tiles) ∧
      tiles.Pairwise (fun r r' => r.start.toNat + r.length.toNat ≤ r'.start.toNat) ∧
      (∀ session x, (Course.start session spec blockSize).Reaches x →
        x.asked <+: tiles ∧
        x.attempt.requested.toNat = (x.asked.map fun r => r.length.toNat).sum ∧
        x.attempt.requested.toNat ≤ spec.length.toNat ∧
        (∀ y, x.Step y → y.asked = x.asked ∨ ∃ r, y.asked = x.asked ++ [r] ∧
          x.session.choked = false ∧ x.attempt.backlog < x.session.window ∧
          y.attempt.requested.toNat = x.attempt.requested.toNat + r.length.toNat ∧
          y.attempt.backlog.toNat = x.attempt.backlog.toNat + 1) ∧
        ∀ (c : Connection) (n : Nat), c.session = x.session →
          spec.length.toNat - x.attempt.requested.toNat ≤ n →
          c.requestBlocks x.attempt n = c.requestBlocks x.attempt spec.length.toNat ∧
          ∀ a' c', c.requestBlocks x.attempt n = (.ok a', c') →
            c'.session.choked = true ∨ a'.requested = spec.length ∨
              c'.session.window ≤ a'.backlog) ∧
      ∀ (c : Connection) (moments : Nat → Moment),
        (Course.start c.session spec blockSize).Ends c.stream.sent
          (c.fetch moments (.start spec blockSize)).2 := by
  have hsize : 0 < max 1 blockSize.toNat := Nat.lt_of_lt_of_le Nat.one_pos (Nat.le_max_left _ _)
  obtain ⟨tiles, htiles⟩ : ∃ tiles, Tiling spec (max 1 blockSize.toNat) 0 tiles :=
    Tiling.exists_tiling hsize (Nat.zero_le _)
  refine ⟨tiles, fun tiles' => ⟨fun h => h.unique htiles, fun h => h ▸ htiles⟩, htiles.pairwise.2,
    fun session x hx => ?_, fun c moments => fetch_along c moments spec blockSize⟩
  have hpaced := (Course.paced_start session spec blockSize).reaches hx
  refine ⟨hpaced.asked_prefix hsize htiles, hpaced.count, hpaced.requested_le, fun y hy => ?_,
    fun c n hsession hn => ⟨?_, fun a' c' hdone => ?_⟩⟩
  · cases hy.effect hpaced.fitted with
    | asks r hr hattempt hasked =>
        obtain ⟨-, hbacklog, -⟩ := Attempt.nextRequest?_eq_some hr
        obtain ⟨hrequested, hmore⟩ := Attempt.toNat_afterRequest hr
        refine .inr ⟨r, hasked, Attempt.choked_of_nextRequest?_eq_some hr,
          UInt32.lt_iff_toNat_lt.2 hbacklog, ?_, ?_⟩
        · rw [hattempt, hrequested]
        · rw [hattempt, hmore]
    | obeys m hsuits hattempt hasked => exact .inl hasked
    | passes state hattempt hasked => exact .inl hasked
  all_goals
    have hblock : 0 < x.attempt.blockSize.toNat := hpaced.blockSize_eq.symm ▸ hsize
    have hle := hpaced.requested_le
    rw [← hpaced.spec_eq] at hn hle ⊢
  · rw [requestBlocks_enough hblock (Nat.le_refl _) hn,
      requestBlocks_enough hblock (Nat.le_refl _) (Nat.sub_le _ _)]
  · obtain ⟨hsame, hall, hnone⟩ := requestBlocks_stops hblock hle hn hdone
    cases hchoked : c'.session.choked with
    | true => exact .inl rfl
    | false =>
        rcases Attempt.nextRequest?_eq_none hnone hchoked with hend | hwindow
        · rw [hsame] at hend
          exact .inr (.inl (UInt32.toNat_inj.1 (Nat.le_antisymm hall hend)))
        · exact .inr (.inr (UInt32.le_iff_toNat_le.2 hwindow))

/-- Two of three requests have gone out, and the last one will be shorter. -/
theorem request_pipeline_short_last :
    let spec : PieceSpec := ⟨3, .zero 20, 5⟩
    let session : Session := { Session.opened ⟨.short ⟨127, 0, 0, 1⟩, 6881⟩ ⟨.zero 20⟩ ⟨[]⟩ 0 with
      choked := false }
    let c : Connection := ⟨session, .start [] .silent none none, 64⟩
    ∃ x, (Course.start session spec 2).Reaches x ∧ x.asked = [⟨3, 0, 2⟩, ⟨3, 2, 2⟩] ∧
      x.asked <+: [⟨3, 0, 2⟩, ⟨3, 2, 2⟩, ⟨3, 4, 1⟩] ∧ x.attempt.requested = 4 ∧
      ∃ a' c', c.requestBlocks x.attempt 1 = (.ok a', c') ∧
        (c'.session.choked = true ∨ a'.requested = 5 ∨ c'.session.window ≤ a'.backlog) := by
  intro spec session c
  obtain ⟨tiles, hunique, -, hcourse, -⟩ := request_pipeline spec 2
  obtain rfl := (hunique [⟨3, 0, 2⟩, ⟨3, 2, 2⟩, ⟨3, 4, 1⟩]).1
    (.tile rfl rfl (by decide) rfl (.tile rfl rfl (by decide) rfl
      (.tile rfl rfl (by decide) rfl .done)))
  have hreaches : (Course.start session spec 2).Reaches _ :=
    .tail (.tail .refl (.asks (r := ⟨3, 0, 2⟩) (by decide +kernel)))
      (.asks (r := ⟨3, 2, 2⟩) (by decide +kernel))
  obtain ⟨hfront, -, -, -, hcalls⟩ := hcourse session _ hreaches
  exact ⟨_, hreaches, rfl, hfront, rfl, _, _, rfl, (hcalls c 1 rfl (by decide)).2 _ _ rfl⟩

end Connection

end Torrent
