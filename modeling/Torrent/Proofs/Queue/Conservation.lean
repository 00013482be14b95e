import Torrent.WorkQueue

/-!
# No work is lost or doubled

A claimed piece leaves the queue and comes back when its holder gives it up.  So
the pieces that wait, those that are held and those that are completed are
together always the pieces the queue began with (`Worksite.Balanced.perm`), and
the queue counts the held ones rightly.

`WorkQueue.claim_of_first` and `WorkQueue.claim_of_none` say all that a claim can do,
and `WorkQueue.first_cases` that nothing else can be; no other proof looks into the queue.
-/

namespace Torrent

/-! ## Claims -/

namespace WorkQueue

variable {q q' : WorkQueue} {suits : PieceSpec → Bool} {spec : PieceSpec}

/-- The first waiting piece that suits is taken out of the queue, and the others stay in order. -/
theorem claim_of_first {before behind : List PieceSpec}
    (hpending : q.pending = before ++ spec :: behind)
    (hbefore : ∀ other ∈ before, suits other = false) (hsuits : suits spec = true) :
    q.claim suits = (.piece spec, ⟨before ++ behind, q.inFlight + 1⟩) := by
  have hother : ∀ other ∈ before, ¬suits other = true := by
    intro other hmem
    simp [hbefore other hmem]
  have hfind : q.pending.find? suits = some spec := by
    rw [List.find?_eq_some_iff_append]
    exact ⟨hsuits, before, behind, hpending, by simpa using hbefore⟩
  have herase : q.pending.eraseP suits = before ++ behind := by
    rw [hpending, List.eraseP_append_right _ hother, List.eraseP_cons_of_pos hsuits]
  simp only [claim, hfind, herase]

/-- A queue without a piece that suits stays as it is. -/
theorem claim_of_none (hnone : ∀ other ∈ q.pending, suits other = false) :
    q.claim suits = (q.idle, q) := by
  have hfind : q.pending.find? suits = none := List.find?_eq_none.2 (by simpa using hnone)
  simp only [claim, hfind]

/-- Some waiting piece is the first that suits, or none suits. -/
theorem first_cases (q : WorkQueue) (suits : PieceSpec → Bool) :
    (∃ before spec behind, q.pending = before ++ spec :: behind ∧
      (∀ other ∈ before, suits other = false) ∧ suits spec = true) ∨
    ∀ other ∈ q.pending, suits other = false := by
  cases hfind : q.pending.find? suits with
  | none => exact .inr (by simpa using List.find?_eq_none.1 hfind)
  | some spec =>
      obtain ⟨hsuits, before, behind, hpending, hbefore⟩ := List.find?_eq_some_iff_append.1 hfind
      exact .inl ⟨before, spec, behind, hpending, by simpa using hbefore, hsuits⟩

theorem idle_ne_piece (q : WorkQueue) (spec : PieceSpec) : q.idle ≠ .piece spec := by
  simp only [idle]
  split
  · exact nofun
  · split <;> exact nofun

/-- A claim that gets a piece takes one that suits out of the queue and counts it as held. -/
theorem claim_piece (h : q.claim suits = (.piece spec, q')) :
    suits spec = true ∧ q.pending.Perm (spec :: q'.pending) ∧ q'.inFlight = q.inFlight + 1 := by
  obtain ⟨before, first, behind, hpending, hbefore, hsuits⟩ | hnone := first_cases q suits
  · rw [claim_of_first hpending hbefore hsuits] at h
    obtain ⟨hspec, rfl⟩ := Prod.mk.inj h
    cases hspec
    exact ⟨hsuits, hpending ▸ List.perm_middle, rfl⟩
  · rw [claim_of_none hnone] at h
    exact absurd (Prod.mk.inj h).1 (idle_ne_piece q spec)

/-- A claim that gets no piece leaves the queue as it is: nothing in it suits, and the answer says
whether anything waits or is held. -/
theorem claim_idle {answer : Claim} (h : q.claim suits = (answer, q'))
    (hanswer : ∀ spec, answer ≠ .piece spec) :
    q' = q ∧ answer = q.idle ∧ ∀ spec ∈ q.pending, suits spec = false := by
  obtain ⟨before, first, behind, hpending, hbefore, hsuits⟩ | hnone := first_cases q suits
  · rw [claim_of_first hpending hbefore hsuits] at h
    exact absurd (Prod.mk.inj h).1.symm (hanswer first)
  · rw [claim_of_none hnone] at h
    obtain ⟨hidle, hq⟩ := Prod.mk.inj h
    exact ⟨hq.symm, hidle.symm, hnone⟩

theorem idle_eq_drained :
    q.idle = .drained ↔ q.pending = [] ∧ q.inFlight = 0 := by
  simp only [idle]
  by_cases hflight : q.inFlight = 0
  · by_cases hpending : q.pending = []
    · simp [hflight, hpending]
    · simp [hflight, hpending]
  · simp [hflight]

theorem inFlight_of_idle_eq_noMatch (h : q.idle = .noMatch) : q.inFlight = 0 := by
  simp only [idle] at h
  split at h
  · cases h
  next hflight => simpa using hflight

theorem isDrained_iff :
    q.isDrained = true ↔ q.pending = [] ∧ q.inFlight = 0 := by
  simp [isDrained]

end WorkQueue

/-! ## Holders -/

namespace Worksite

open scoped List

/-- What somebody does at a worksite.  Who holds several pieces holds each under a name of its
own. -/
inductive Act
  | claim (name : String) (suits : PieceSpec → Bool)
  | complete (name : String)
  | giveUp (name : String)

/-- What comes of an act. -/
def act (s : Worksite) : Act → Worksite
  | .claim name suits => (s.claim name suits).2
  | .complete name => s.complete name
  | .giveUp name => s.giveUp name

/-- What comes of a row of acts. -/
def run (s : Worksite) (acts : List Act) : Worksite := acts.foldl act s

/-- All pieces of a worksite: those that wait, those that are held and those that are complete. -/
def all (s : Worksite) : List PieceSpec := s.queue.pending ++ s.held.map Prod.snd ++ s.completed

/-- The held piece of a name stands in front of what is held under other names. -/
theorem perm_release {s : Worksite} {name : String} {spec : PieceSpec}
    (hnames : (s.held.map Prod.fst).Nodup) (h : s.holding? name = some spec) :
    s.held.Perm ((name, spec) :: (s.release name).held) := by
  obtain ⟨⟨held, _⟩, hfind, rfl⟩ := Option.map_eq_some_iff.1 h
  obtain ⟨hname, before, behind, hsplit, hbefore⟩ := List.find?_eq_some_iff_append.1 hfind
  have hheld : held = name := by simpa using hname
  subst hheld
  rw [hsplit, List.map_append, List.map_cons] at hnames
  have hrest := List.perm_middle.nodup_iff.1 hnames
  have hfilter : (s.release held).held = before ++ behind := by
    simp only [release, hsplit, List.filter_append]
    rw [List.filter_cons_of_neg (by simp), List.filter_eq_self.2, List.filter_eq_self.2]
    · intro entry hentry
      have : held ∉ behind.map Prod.fst := fun hmem =>
        (List.nodup_cons.1 hrest).1 (List.mem_append_right _ hmem)
      simp only [bne_iff_ne, ne_eq]
      exact fun heq => this (heq ▸ List.mem_map_of_mem hentry)
    · intro entry hentry
      simpa using hbefore entry hentry
  rw [hfilter, hsplit]
  exact List.perm_middle

theorem not_mem_names_release (s : Worksite) (name : String) :
    name ∉ (s.release name).held.map Prod.fst := by
  simp [release]

theorem names_release {s : Worksite} (name : String) (h : (s.held.map Prod.fst).Nodup) :
    ((s.release name).held.map Prod.fst).Nodup :=
  h.sublist (List.filter_sublist.map _)

/-- A name under which nothing is held is not among the names. -/
theorem not_mem_names_of_holding?_eq_none {s : Worksite} {name : String}
    (h : s.holding? name = none) : name ∉ s.held.map Prod.fst := by
  simp only [holding?, Option.map_eq_none_iff, List.find?_eq_none] at h
  intro hmem
  obtain ⟨entry, hentry, hname⟩ := List.mem_map.1 hmem
  exact h entry hentry (by simpa using hname)

/-- Giving up puts the held piece of a name, if there is one, back among the waiting ones. -/
theorem giveUp_perm {s : Worksite} (name : String) (hnames : (s.held.map Prod.fst).Nodup) :
    ((s.giveUp name).queue.pending ++ (s.giveUp name).held.map Prod.snd).Perm
      (s.queue.pending ++ s.held.map Prod.snd) := by
  simp only [giveUp]
  cases hhold : s.holding? name with
  | none => exact .refl _
  | some spec =>
      have hheld := (perm_release hnames hhold).map Prod.snd
      simp only [WorkQueue.pending_giveBack, List.append_assoc, List.singleton_append]
      exact hheld.symm.append_left _

/-- Giving up counts one held piece less for every name that holds one less. -/
theorem giveUp_inFlight {s : Worksite} (name : String) (hnames : (s.held.map Prod.fst).Nodup)
    (hcount : s.held.length ≤ s.queue.inFlight) :
    (s.giveUp name).queue.inFlight + s.held.length =
      s.queue.inFlight + (s.giveUp name).held.length := by
  simp only [giveUp]
  cases hhold : s.holding? name with
  | none => rfl
  | some spec =>
      have hlength := (perm_release hnames hhold).length_eq
      simp only [List.length_cons] at hlength
      simp only [WorkQueue.inFlight_giveBack]
      omega

theorem giveUp_completed (s : Worksite) (name : String) :
    (s.giveUp name).completed = s.completed := by
  simp only [giveUp]
  cases s.holding? name <;> rfl

/-- Behind giving up, nothing is held under the name. -/
theorem names_giveUp {s : Worksite} (name : String) (hnames : (s.held.map Prod.fst).Nodup) :
    (name :: (s.giveUp name).held.map Prod.fst).Nodup := by
  simp only [giveUp]
  cases hhold : s.holding? name with
  | none => exact List.nodup_cons.2 ⟨not_mem_names_of_holding?_eq_none hhold, hnames⟩
  | some spec =>
      exact List.nodup_cons.2 ⟨not_mem_names_release s name, names_release name hnames⟩

/-- The books of a worksite that began with these pieces are in order. -/
structure Balanced (pieces : List PieceSpec) (s : Worksite) : Prop where
  names : (s.held.map Prod.fst).Nodup
  count : s.queue.inFlight = s.held.length
  /-- No piece was lost or doubled. -/
  perm : s.all.Perm pieces

theorem balanced_ofPieces (pieces : List PieceSpec) : (ofPieces pieces).Balanced pieces :=
  ⟨List.nodup_nil, rfl, by simp [all, ofPieces, WorkQueue.ofPieces]⟩

theorem Balanced.giveUp {pieces : List PieceSpec} {s : Worksite} (h : s.Balanced pieces)
    (name : String) : (s.giveUp name).Balanced pieces := by
  refine ⟨(List.nodup_cons.1 (names_giveUp name h.names)).2, ?_, ?_⟩
  · have := giveUp_inFlight name h.names (Nat.le_of_eq h.count.symm)
    have := h.count
    omega
  · simp only [all]
    rw [giveUp_completed]
    exact ((giveUp_perm name h.names).append_right _).trans h.perm

theorem Balanced.complete {pieces : List PieceSpec} {s : Worksite} (h : s.Balanced pieces)
    (name : String) : (s.complete name).Balanced pieces := by
  simp only [Worksite.complete]
  cases hhold : s.holding? name with
  | none => exact h
  | some spec =>
      have hheld := perm_release h.names hhold
      refine ⟨names_release name h.names, ?_, ?_⟩
      · have hlength := hheld.length_eq
        have hcount := h.count
        simp only [List.length_cons] at hlength
        simp only [WorkQueue.inFlight_complete]
        omega
      · refine List.Perm.trans ?_ h.perm
        have hsnd := hheld.map Prod.snd
        simp only [List.map_cons] at hsnd
        simp only [all, WorkQueue.pending_complete, List.append_assoc]
        refine List.Perm.append_left _ ?_
        -- the completed piece moves from behind the completed ones to the front of the held ones
        calc (s.release name).held.map Prod.snd ++ (s.completed ++ [spec])
            _ = (s.release name).held.map Prod.snd ++ s.completed ++ [spec] := by
              rw [List.append_assoc]
            _ ~ [spec] ++ ((s.release name).held.map Prod.snd ++ s.completed) :=
              List.perm_append_comm
            _ ~ s.held.map Prod.snd ++ s.completed := hsnd.symm.append_right _

theorem Balanced.claim {pieces : List PieceSpec} {s : Worksite} (h : s.Balanced pieces)
    (name : String) (suits : PieceSpec → Bool) : (s.claim name suits).2.Balanced pieces := by
  simp only [Worksite.claim]
  cases hclaim : s.queue.claim suits with
  | mk answer queue =>
      cases answer with
      | noMatch => exact h
      | wait => exact h
      | drained => exact h
      | piece spec =>
          obtain ⟨-, hpending, hflight⟩ := WorkQueue.claim_piece hclaim
          -- the new piece is out of the queue before the old one of the name goes back
          obtain ⟨taken, htaken⟩ : ∃ t : Worksite, t = { s with queue := queue } := ⟨_, rfl⟩
          have hqueue : taken.queue = queue := by rw [htaken]
          have hheld : taken.held = s.held := by rw [htaken]
          have hcompleted : taken.completed = s.completed := by rw [htaken]
          have hnames : (taken.held.map Prod.fst).Nodup := hheld ▸ h.names
          have hcount : taken.queue.inFlight = taken.held.length + 1 := by
            rw [hqueue, hheld, hflight, h.count]
          have hperm := giveUp_perm name hnames
          rw [hqueue, hheld] at hperm
          simp only [← htaken]
          refine ⟨?_, ?_, ?_⟩
          · rw [List.map_append]
            exact List.perm_append_comm.nodup_iff.1 (names_giveUp name hnames)
          · have := giveUp_inFlight name hnames (by omega)
            simp only [List.length_append, List.length_singleton]
            omega
          · refine List.Perm.trans ?_ h.perm
            simp only [all, List.map_append, List.map_cons, List.map_nil]
            rw [giveUp_completed, hcompleted]
            refine List.Perm.append_right _ ?_
            calc (taken.giveUp name).queue.pending ++
                  ((taken.giveUp name).held.map Prod.snd ++ [spec])
                _ = (taken.giveUp name).queue.pending ++
                  (taken.giveUp name).held.map Prod.snd ++ [spec] := by rw [List.append_assoc]
                _ ~ [spec] ++ ((taken.giveUp name).queue.pending ++
                  (taken.giveUp name).held.map Prod.snd) := List.perm_append_comm
                _ ~ [spec] ++ (queue.pending ++ s.held.map Prod.snd) := hperm.append_left _
                _ ~ s.queue.pending ++ s.held.map Prod.snd := hpending.symm.append_right _

/-- No act puts the books out of order. -/
theorem Balanced.act {pieces : List PieceSpec} {s : Worksite} (h : s.Balanced pieces) (a : Act) :
    (s.act a).Balanced pieces := by
  cases a with
  | claim name suits => exact h.claim name suits
  | complete name => exact h.complete name
  | giveUp name => exact h.giveUp name

theorem Balanced.run {pieces : List PieceSpec} {s : Worksite} (h : s.Balanced pieces)
    (acts : List Act) : (s.run acts).Balanced pieces := by
  induction acts generalizing s with
  | nil => exact h
  | cons a acts ih => exact ih (h.act a)

/-- Whoever holds a piece is counted. -/
theorem Balanced.inFlight_pos {pieces : List PieceSpec} {s : Worksite} (h : s.Balanced pieces)
    {name : String} {spec : PieceSpec} (hhold : s.holding? name = some spec) :
    0 < s.queue.inFlight := by
  have := (perm_release h.names hhold).length_eq
  rw [h.count, this]
  exact Nat.succ_pos _

/-- Whatever claimants do in whatever order, the pieces waiting, held and completed are together
the pieces the queue began with, and the queue counts the held ones: it never counts down from
zero, since whoever finishes is counted.  If the pieces have different numbers, no number is ever
held twice, held and waiting at once, or completed twice. -/
theorem work_conserved (pieces : List PieceSpec) (acts : List Act) :
    let s := (ofPieces pieces).run acts
    s.queue.pending ++ s.held.map Prod.snd ++ s.completed ~ pieces ∧
      s.queue.inFlight = s.held.length ∧
      (∀ name spec, s.holding? name = some spec → 0 < s.queue.inFlight) ∧
      ((pieces.map PieceSpec.index).Nodup →
        ((s.queue.pending ++ s.held.map Prod.snd ++ s.completed).map PieceSpec.index).Nodup) := by
  intro s
  have hs : s.Balanced pieces := (balanced_ofPieces pieces).run acts
  refine ⟨hs.perm, hs.count, ?_, ?_⟩
  · intro name spec hhold
    exact hs.inFlight_pos hhold
  · intro hdistinct
    exact (hs.perm.map PieceSpec.index).nodup_iff.2 hdistinct

/-- Two holders at three pieces: one takes a second piece and thereby gives up its first, the other
completes its own. -/
theorem work_conserved_two_holders :
    let pieces := [0, 1, 2].map fun i : UInt32 => PieceSpec.mk i (Octets.zero 20) 16
    let s := (ofPieces pieces).run
      [.claim "a" fun _ => true, .claim "b" fun spec => spec.index != 1, .claim "a" fun _ => true,
        .complete "b"]
    (s.queue.pending.map PieceSpec.index, s.held.map fun entry => (entry.1, entry.2.index),
        s.completed.map PieceSpec.index) = ([0], [("a", 1)], [2]) ∧
      ((s.queue.pending ++ s.held.map Prod.snd ++ s.completed).map PieceSpec.index).Nodup :=
  ⟨by decide, (work_conserved _ _).2.2.2 (by decide)⟩

end Worksite

end Torrent
