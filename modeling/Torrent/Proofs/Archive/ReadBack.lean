import Torrent.Proofs.Archive.Orderly

/-!
# What was written is read back

A stretch of a piece that was written is read back however the calls of other
pieces come in between, and also when files are closed (`Archive.read_back`).

Reading is on its way to its block from the beginning.  Each of its own turns
brings it closer, and the turns of others leave it where it is
(`Archive.Turn.follows`), because the piece stays in its files.
-/

namespace Torrent.Archive

variable {d : Descriptor} {acts : List Act} {a b : Archive} {e : Act} {i j : PieceIndex}
  {data block : Bytes} {cs : List Chunk} {r : Reading} {k start length : Nat}

/-- The call that has its turn. -/
def Act.call? : Act → Option Nat
  | .proceed k _ => some k
  | _ => none

/-- The number of turns that a call has. -/
def turns (k : Nat) (acts : List Act) : Nat := acts.countP fun e => e.call? == some k

/-- Reading on its way to a block comes closer in its own turns and stays where it is in those of
others. -/
theorem Turn.follows (h : Turn a e b) (ha : a.store.Settled a.tree)
    (hcall : a.calls[k]? = some (.read i start length r))
    (hheld : ∀ c ∈ cs, a.store.Holds a.tree c) (hr : r.Follows a.store a.tree cs block) :
    ∃ r', b.calls[k]? = some (.read i start length r') ∧ r'.Follows b.store b.tree cs block ∧
      r'.stepsLeft = r.stepsLeft - turns k [e] := by
  have hlater := h.later ha
  rcases h.reading hcall with ⟨hother, hsame⟩ | ⟨fault, r', rfl, hstep, hcall'⟩
  · refine ⟨r, hsame, hr.keeps hlater.grows.layout hlater.keeps, ?_⟩
    have hturns : turns k [e] = 0 := by
      cases e with
      | proceed k' fault =>
          have hne : k' ≠ k := by
            rintro rfl
            exact hother fault rfl
          simp [turns, Act.call?, hne]
      | _ => rfl
    rw [hturns, Nat.sub_zero]
  · obtain ⟨htree, -, hlayout, hfollows, hsteps⟩ := hr.step ha.handles hheld hstep
    refine ⟨r', hcall', htree.symm ▸ hfollows, ?_⟩
    rw [hsteps]
    simp [turns, Act.call?]

/-- Reading a stretch of a piece that lies in its files stays on its way to the bytes there. -/
theorem Orderly.follows_run (h : a.Orderly d acts) (hd : d.Sound) (hagree : Agree acts)
    (hpiece : ∀ data', .write i data' ∈ acts → data = data')
    (hlies : a.store.Lies a.tree i data []) (hend : start + length ≤ data.length)
    {gs : List Segment}
    (hsegments : a.store.segments? ((a.store.pieceStart i).toNat + start) length = some gs)
    (hcall : a.calls[k]? = some (.read i start length r))
    (hr : r.Follows a.store a.tree (deal gs ((data.drop start).take length))
      ((data.drop start).take length))
    {after : List Act} (hafter : ∀ e ∈ after, e ∈ acts) :
    ∃ r', (a.run after).calls[k]? = some (.read i start length r') ∧
      r'.Follows (a.run after).store (a.run after).tree (deal gs ((data.drop start).take length))
        ((data.drop start).take length) ∧
      r'.stepsLeft = r.stepsLeft - turns k after := by
  induction after generalizing a r with
  | nil => exact ⟨r, hcall, hr, rfl⟩
  | cons e after ih =>
      have hturn := turn_act a e
      have hlater := hturn.later h.settled
      have he := hafter e (List.mem_cons_self ..)
      obtain ⟨gs', hsegments', hheld⟩ := hlies.holds_slice hend
      rw [hsegments] at hsegments'
      cases hsegments'
      obtain ⟨r', hcall', hr', hsteps⟩ := hturn.follows h.settled hcall hheld hr
      have hsegments' : (a.act e).store.segments?
          (((a.act e).store.pieceStart i).toNat + start) length = some gs := by
        rw [Store.segments?_of_layout hlater.grows.layout,
          Store.pieceStart_of_layout hlater.grows.layout]
        exact hsegments
      obtain ⟨r'', hcall'', hr'', hsteps'⟩ :=
        ih (h.turn hd hagree he hturn) (h.lies hd hturn hpiece hlies) hsegments' hcall' hr'
          fun e' he' => hafter e' (List.mem_cons_of_mem _ he')
      refine ⟨r'', hcall'', hr'', ?_⟩
      rw [hsteps', hsteps, Nat.sub_sub]
      congr 1
      simp only [turns]
      rw [List.countP_cons, List.countP_cons, List.countP_nil]
      omega

/-- Reading that is over stays over. -/
theorem finished_run {result : Option Bytes}
    (hcall : a.calls[k]? = some (.read i start length (.finished result))) (after : List Act) :
    (a.run after).calls[k]? = some (.read i start length (.finished result)) := by
  refine run_moments (P := fun b => b.calls[k]? = some (.read i start length (.finished result)))
    hcall fun e _ b b' hturn hb => ?_
  rcases hturn.reading hb with ⟨-, hsame⟩ | ⟨fault, r', -, hstep, hcall'⟩
  · exact hsame
  · obtain rfl : .finished result = r' := congrArg Prod.fst hstep
    exact hcall'

/-- Reading is refused when no byte is asked for, when the stretch leaves the piece and when the
piece is not reported. -/
theorem read_eq_none {s : Store} (h : length = 0 ∨
    (∀ pieceLen, s.pieceLen? i = some pieceLen → pieceLen.toNat < start + length) ∨
    s.hasPiece i = false) : s.read i start length = .finished none := by
  simp only [Store.read]
  split
  next => rfl
  next hbit =>
    split
    next => rfl
    next pieceLen hpiece =>
      rcases h with hzero | hbehind | hmissing
      · rw [if_pos (.inl hzero)]
      · rw [if_pos (.inr (hbehind pieceLen hpiece))]
      · exact absurd hmissing hbit

/-- What was written is read back, whatever other calls do before, between and after: a stretch of
a piece whose writing has succeeded is read with the bytes that were written, and at the latest when
the call has had as many turns as it has steps.  A stretch of no bytes, one that leaves its piece
and one of a piece that is not reported give nothing. -/
theorem read_back {s : Store} {tree tree' : FileTree} {root name : List Char}
    (hcheck : d.check = .ok ()) (hopen : Store.open_ tree root d name = (.ok s, tree'))
    (hplaces : (Store.placesOf tree root name d).Nodup) (before after : List Act)
    (i : PieceIndex) (start length : Nat)
    (hagree : Agree (before ++ .read i start length :: after)) :
    let a := (idle s tree').run before
    let call := a.calls.length
    let b := (idle s tree').run (before ++ .read i start length :: after)
    (∀ data pieceLen, .write i data (.finished (.ok ())) ∈ a.calls →
      s.pieceLen? i = some pieceLen → 0 < length → start + length ≤ pieceLen.toNat →
      ∃ r, b.calls[call]? = some (.read i start length r) ∧
        (∀ result, r = .finished result → result = some ((data.drop start).take length)) ∧
        ((a.store.read i start length).stepsLeft ≤ turns call after →
          r = .finished (some ((data.drop start).take length)))) ∧
      (length = 0 ∨
        (∀ pieceLen, s.pieceLen? i = some pieceLen → pieceLen.toNat < start + length) ∨
        a.store.hasPiece i = false →
        b.calls[call]? = some (.read i start length (.finished none))) := by
  intro a call b
  have hd := Descriptor.sound_of_check hcheck
  have hidle := orderly_idle hopen hplaces (before ++ .read i start length :: after)
  have ha : a.Orderly d (before ++ .read i start length :: after) :=
    hidle.run hd hagree fun e he => List.mem_append_left _ he
  have hlater : Later (idle s tree') a := later_run hidle.settled before
  have hpieceLen : a.store.pieceLen? i = s.pieceLen? i := by
    rw [Store.pieceLen?_of_layout hlater.grows.layout]
    rfl
  have hrun : b = (a.act (.read i start length)).run after := run_append _ before _
  have hcall : (a.act (.read i start length)).calls[call]? =
      some (.read i start length (a.store.read i start length)) := by
    simp only [act, call]
    rw [List.getElem?_append_right (Nat.le_refl _), Nat.sub_self]
    rfl
  refine ⟨fun data pieceLen hdone hlen hpos hend => ?_, fun hrefused => ?_⟩
  · obtain ⟨hlies, hbit⟩ := ha.of_finished hdone
    have hdata : start + length ≤ data.length := by
      obtain ⟨gs, done, hlaid, -⟩ := id hlies
      obtain ⟨pieceLen', hlen', hdata⟩ := hlaid.length
      rw [hpieceLen, hlen] at hlen'
      cases hlen'
      omega
    obtain ⟨gs, hsegments, -, hfollows⟩ := hlies.read hbit hpos hdata
    have hbegun : (a.act (.read i start length)).Orderly d
        (before ++ .read i start length :: after) :=
      ha.turn hd hagree (by simp) (turn_act a _)
    obtain ⟨r, hr, hrfollows, hsteps⟩ := hbegun.follows_run hd hagree
      (fun data' => hagree i data data' (ha.asked i data _ hdone)) hlies hdata hsegments hcall
      hfollows fun e he => List.mem_append_right _ (List.mem_cons_of_mem _ he)
    refine ⟨r, hrun ▸ hr, fun result hresult => ?_, fun henough => ?_⟩
    · subst hresult
      exact hrfollows
    · exact hrfollows.eq_finished (by omega)
  · have hnone : a.store.read i start length = .finished none := by
      refine read_eq_none ?_
      rw [hpieceLen]
      exact hrefused
    rw [hnone] at hcall
    rw [hrun]
    exact finished_run hcall after

/-- A piece is read while the next one is written into the same file, which is closed on the way. -/
theorem read_back_closed_file :
    let d : Descriptor := ⟨⟨.zero 20⟩, 4, 2, [.zero 20, .zero 20], [⟨"a", 3⟩, ⟨"b", 1⟩]⟩
    let before : List Act := [.write 0 [1, 2]] ++ List.replicate 6 (.proceed 0 none) ++
      [.write 1 [3, 4], .proceed 1 none]
    let after : List Act := [.release 0, .proceed 2 none, .proceed 1 none, .release 0,
      .proceed 2 none, .proceed 1 none, .proceed 2 none]
    d.check = .ok () ∧ (Store.placesOf (.empty []) ['t'] ['r'] d).Nodup ∧
      Agree (before ++ .read 0 1 1 :: after) ∧
      ∃ s tree, Store.open_ (.empty []) ['t'] d ['r'] = (.ok s, tree) ∧
        .write 0 [1, 2] (.finished (.ok ())) ∈ ((idle s tree).run before).calls ∧
        ((idle s tree).run (before ++ .read 0 1 1 :: after)).calls[2]? =
          some (.read 0 1 1 (.finished (some [2]))) ∧
        ((idle s tree).run (before ++ [.read 1 0 2])).calls[2]? =
          some (.read 1 0 2 (.finished none)) := by
  have hopen : Store.open_ (.empty []) ['t']
    ⟨⟨.zero 20⟩, 4, 2, [.zero 20, .zero 20], [⟨"a", 3⟩, ⟨"b", 1⟩]⟩ ['r'] = (.ok _, _) := rfl
  have hback := read_back rfl hopen (by decide) ([.write 0 [1, 2]] ++
    List.replicate 6 (.proceed 0 none) ++ [.write 1 [3, 4], .proceed 1 none])
  refine ⟨rfl, by decide, by decide, _, _, hopen, by decide +kernel, ?_, ?_⟩
  · have hread := hback [.release 0, .proceed 2 none, .proceed 1 none, .release 0,
      .proceed 2 none, .proceed 1 none, .proceed 2 none] 0 1 1 (by decide)
    obtain ⟨r, hr, -, hend⟩ := hread.1 [1, 2] 2 (by decide +kernel) rfl (by decide) (by decide)
    rw [hend (by decide +kernel)] at hr
    exact hr
  · exact (hback [] 1 0 2 (by decide)).2 (.inr (.inr (by decide +kernel)))

end Torrent.Archive
