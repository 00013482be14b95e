import Torrent.Proofs.Archive.Orderly
import Torrent.Proofs.Store.ResumeFile

/-!
# After a crash

A crash leaves what the effects have brought to the files so far, the last of them
perhaps in part (`Archive.Cut`).  A store that is opened on what is left reports no
piece that does not lie in its files, and so every piece that it reports is read
back (`Archive.resume_after_crash`).

The reason is the order of effects: a bit is set when its piece is in the files, and
the resume file never says more than the bitmap in memory (`Archive.Recoverable`).
An old resume file that is too short says nothing until a whole bitmap is written.

No effect may fail before the crash.  If a bitmap fails to be written, the file is
filled up to its length nevertheless, and what was in front in the old one counts
(`Archive.reported_after_failed_rewrite`).
-/

namespace Torrent

/-- Every piece that a store reports is read back, and nothing has to be made for it. -/
def Store.Intact (s : Store) (t : FileTree) : Prop :=
  ∀ i : PieceIndex, i.toNat < s.pieceCount → s.hasPiece i = true →
    (s.readPiece t i).1.isSome = true ∧ (s.readPiece t i).2.2 = t

instance (s : Store) (t : FileTree) : Decidable (s.Intact t) :=
  decidable_of_iff (∀ k < min s.pieceCount UInt32.size, s.hasPiece (UInt32.ofNat k) = true →
    (s.readPiece t (UInt32.ofNat k)).1.isSome = true ∧
      (s.readPiece t (UInt32.ofNat k)).2.2 = t) <| by
    constructor
    · intro h i hi hbit
      have hk := h i.toNat (Nat.lt_min.2 ⟨hi, i.toNat_lt⟩)
      rw [UInt32.ofNat_toNat] at hk
      exact hk hbit
    · intro h k hk
      obtain ⟨hcount, hsize⟩ := Nat.lt_min.1 hk
      refine h (UInt32.ofNat k) ?_
      rw [UInt32.toNat_ofNat', Nat.mod_eq_of_lt hsize]
      exact hcount

namespace Archive

variable {d : Descriptor} {acts : List Act} {a b : Archive} {e : Act}
  {known : PieceIndex → Bytes → Prop}

/-- What a crash can leave of the files: of the next effect of a call, that of a failure put upon
it, or some of the directories that the call makes. -/
inductive Cut (a : Archive) : FileTree → Prop
  | torn (k : Nat) (fault : Fault) : Cut a (a.turn k (some fault)).tree
  | making {left : FileTree} (h : a.tree.Furnished left) : Cut a left

/-- An archive whose files can be left as they are at any time. -/
structure Recoverable (d : Descriptor) (acts : List Act) (known : PieceIndex → Bytes → Prop)
    (a : Archive) : Prop extends Orderly d acts a where
  /-- What is reported lies in its files. -/
  placed : ∀ i : PieceIndex, a.store.hasPiece i = true → i.toNat < d.pieceCount →
    ∃ data, known i data ∧ a.store.Lies a.tree i data []
  /-- The resume file says no more than the bitmap in memory. -/
  modest : ∀ i : PieceIndex,
    (Store.bitmapOf (a.tree.content a.store.resume) d.pieceCount).has i = true →
      a.store.hasPiece i = true
  /-- Nor does a bitmap that is still to be written. -/
  saving : ∀ i data bitmap, .write i data (.saving bitmap) ∈ a.calls →
    bitmap.length = byteLength d.pieceCount ∧
      ∀ j, (⟨bitmap⟩ : Bitfield).has j = true → a.store.hasPiece j = true
  /-- A resume file that is still to be cut is long enough. -/
  cutting : ∀ i data n failure, .write i data (.cutting n failure) ∈ a.calls →
    n = byteLength d.pieceCount ∧
      byteLength d.pieceCount ≤ (a.tree.content a.store.resume).length

namespace Recoverable

/-- What is reported after a turn lies in its files, also when the turn failed. -/
theorem placed_turn (h : a.Recoverable d acts known) (hd : d.Sound)
    (hknown : ∀ i data data', known i data → .write i data' ∈ acts → data = data')
    (hasked : ∀ i data, .write i data ∈ acts → known i data) (hturn : Turn a e b) (i : PieceIndex)
    (hi : b.store.hasPiece i = true) (hlt : i.toNat < d.pieceCount) :
    ∃ data, known i data ∧ b.store.Lies b.tree i data [] := by
  obtain ⟨data, hdata, hlies⟩ : ∃ data, known i data ∧ a.store.Lies a.tree i data [] := by
    rcases hturn.hasPiece hi with hold | ⟨j, data, hcall⟩
    · exact h.placed i hold hlt
    · obtain ⟨rfl, hlies⟩ := h.carries j data _ hcall
      exact ⟨data, hasked i data (h.asked i data _ hcall), hlies⟩
  exact ⟨data, hdata, h.lies hd hturn (hknown i data · hdata) hlies⟩

/-- The resume file says no more after a turn, also when the turn failed. -/
theorem modest_turn (h : a.Recoverable d acts known) (hturn : Turn a e b) (i : PieceIndex)
    (hi : (Store.bitmapOf (b.tree.content b.store.resume) d.pieceCount).has i = true) :
    b.store.hasPiece i = true := by
  refine (hturn.later h.settled).grows.bits i ?_
  rcases h.resume hturn with hsame | ⟨k, fault, j, data, w, -, hcall, ⟨bitmap, rfl, hwritten⟩ |
    ⟨n, failure, rfl, hcut⟩⟩
  · rw [hsame] at hi
    exact h.modest i hi
  · obtain ⟨n, hn⟩ := Fault.passed_eq_take fault bitmap
    rw [hwritten, hn] at hi
    rcases Store.bit_of_bit_writeAt hi with hnew | hold
    · exact (h.saving j data bitmap (List.mem_of_getElem? hcall)).2 i hnew
    · exact h.modest i hold
  · obtain ⟨rfl, hlength⟩ := h.cutting j data n failure (List.mem_of_getElem? hcall)
    rw [hcut, Store.bitmapOf_resize hlength] at hi
    exact h.modest i hi

/-- The resume file does not get too short. -/
theorem length_turn (h : a.Recoverable d acts known) (hturn : Turn a e b)
    (hlength : byteLength d.pieceCount ≤ (a.tree.content a.store.resume).length) :
    byteLength d.pieceCount ≤ (b.tree.content b.store.resume).length := by
  rcases h.resume hturn with hsame | ⟨k, fault, j, data, w, -, hcall, ⟨bitmap, rfl, hwritten⟩ |
    ⟨n, failure, rfl, hcut⟩⟩
  · rwa [hsame]
  · rw [hwritten, Bytes.length_writeAt]
    omega
  · obtain ⟨rfl, -⟩ := h.cutting j data n failure (List.mem_of_getElem? hcall)
    have hlength' := congrArg List.length hcut
    rw [Bytes.length_resize] at hlength'
    exact Nat.le_of_eq hlength'.symm

theorem turn (h : a.Recoverable d acts known) (hd : d.Sound) (hagree : Agree acts)
    (hknown : ∀ i data data', known i data → .write i data' ∈ acts → data = data')
    (hasked : ∀ i data, .write i data ∈ acts → known i data) (he : e ∈ acts)
    (hfault : e.fault? = none) (hturn : Turn a e b) : b.Recoverable d acts known := by
  have hlater := hturn.later h.settled
  have horderly := h.toOrderly.turn hd hagree he hturn
  refine ⟨horderly, h.placed_turn hd hknown hasked hturn, h.modest_turn hturn, ?_, ?_⟩
  · intro i data bitmap hcall
    rcases hturn.writing hcall with hold | ⟨-, hbegun⟩ | ⟨k, fault, w, -, -, heffect⟩
    · obtain ⟨hlength, hbits⟩ := h.saving i data bitmap hold
      exact ⟨hlength, fun j hj => hlater.grows.bits j (hbits j hj)⟩
    · cases Writing.isMarked_of_eq_write hbegun
    · obtain rfl := heffect.eq_of_saving
      exact ⟨horderly.size, fun j hj => hj⟩
  · intro i data n failure hcall
    rcases hturn.writing hcall with hold | ⟨-, hbegun⟩ | ⟨k, fault, w, rfl, hold, heffect⟩
    · obtain ⟨hn, hlength⟩ := h.cutting i data n failure hold
      exact ⟨hn, h.length_turn hturn hlength⟩
    · cases Writing.isMarked_of_eq_write hbegun
    · obtain rfl : fault = none := hfault
      obtain ⟨bitmap, rfl, rfl, -, -, htree⟩ := heffect.of_cutting
      obtain ⟨hlength, -⟩ := h.saving i data bitmap (List.mem_of_getElem? hold)
      refine ⟨hlength, ?_⟩
      rw [hlater.resume_eq, htree]
      simp only [FileTree.writeAt, Fault.passed]
      rw [FileTree.content_setContent_self h.housed.resume_lt, Bytes.length_writeAt]
      omega

/-- What a crash leaves has every piece that its resume file names. -/
theorem cut (h : a.Recoverable d acts known) (hd : d.Sound)
    (hknown : ∀ i data data', known i data → .write i data' ∈ acts → data = data')
    (hasked : ∀ i data, .write i data ∈ acts → known i data) {left : FileTree}
    (hleft : a.Cut left) :
    a.tree.Keeps left ∧ ∀ i : PieceIndex, i.toNat < d.pieceCount →
      (Store.bitmapOf (left.content a.store.resume) d.pieceCount).has i = true →
        ∃ data, known i data ∧ a.store.Lies left i data [] := by
  cases hleft with
  | torn k fault =>
      have hturn : Turn a (.proceed k (some fault)) (a.turn k (some fault)) := turn_act a _
      have hlater := hturn.later h.settled
      refine ⟨hlater.keeps, fun i hi hbit => ?_⟩
      rw [← hlater.resume_eq] at hbit
      have hreported := h.modest_turn hturn i hbit
      obtain ⟨data, hdata, hlies⟩ := h.placed_turn hd hknown hasked hturn i hreported hi
      exact ⟨data, hdata, hlies.extends hlater.grows.layout.symm (.refl _)⟩
  | making hfurnished =>
      refine ⟨hfurnished.toKeeps, fun i hi hbit => ?_⟩
      rw [hfurnished.extends.content] at hbit
      obtain ⟨data, hdata, hlies⟩ := h.placed i (h.modest i hbit) hi
      exact ⟨data, hdata, hlies.extends rfl hfurnished.extends⟩

end Recoverable

/-- A store that is opened on what a crash has left reports a piece only if it can be read back:
with the bytes that were there before, if the piece was reported then, and else with those of the
call that wrote it.  What was reported in the beginning must be there, no call writes such a piece,
and no effect has failed before the crash. -/
theorem resume_after_crash {s : Store} {tree tree' : FileTree} {root name : List Char}
    (hcheck : d.check = .ok ()) (hopen : Store.open_ tree root d name = (.ok s, tree'))
    (hplaces : (Store.placesOf tree root name d).Nodup)
    (hintact : s.Intact tree') (acts : List Act) (hagree : Agree acts)
    (hnew : ∀ i data, .write i data ∈ acts → s.hasPiece i = false)
    (hfaults : ∀ e ∈ acts, e.fault? = none) {left : FileTree}
    (hleft : ((idle s tree').run acts).Cut left) :
    ∃ s', Store.open_ left root d name = (.ok s', left) ∧
      ∀ i : PieceIndex, i.toNat < d.pieceCount → s'.hasPiece i = true →
        ∃ data, (s'.readPiece left i).1 = some data ∧
          (s.hasPiece i = true ∧ (s.readPiece tree' i).1 = some data ∨
            s.hasPiece i = false ∧ .write i data ∈ acts) := by
  have hd := Descriptor.sound_of_check hcheck
  have hidle := orderly_idle hopen hplaces acts
  let known (i : PieceIndex) (data : Bytes) : Prop :=
    s.hasPiece i = true ∧ (s.readPiece tree' i).1 = some data ∨
      s.hasPiece i = false ∧ .write i data ∈ acts
  have hknown : ∀ i data data', known i data → .write i data' ∈ acts → data = data' := by
    rintro i data data' (⟨hbit, -⟩ | ⟨-, hdata⟩) hdata'
    · rw [hnew i data' hdata'] at hbit
      cases hbit
    · exact hagree i data data' hdata hdata'
  have hasked : ∀ i data, .write i data ∈ acts → known i data :=
    fun i data hdata => .inr ⟨hnew i data hdata, hdata⟩
  have hbegin : (idle s tree').Recoverable d acts known := by
    refine ⟨hidle, fun i hbit hi => ?_, fun i hbit => ?_, nofun, nofun⟩
    · obtain ⟨hsome, htree⟩ := hintact i (hidle.fits.pieceCount.symm ▸ hi) hbit
      obtain ⟨data, hdata⟩ := Option.isSome_iff_exists.1 hsome
      refine ⟨data, .inl ⟨hbit, hdata⟩, ?_⟩
      exact Store.lies_of_readPiece hidle.housed.handles (Prod.ext hdata (Prod.ext rfl htree))
    · simp only [Store.hasPiece]
      exact (Store.completed_open hopen).symm ▸ hbit
  have hrun : ((idle s tree').run acts).Recoverable d acts known :=
    run_moments (P := Recoverable d acts known) hbegin fun e he _ _ hturn hb =>
      hb.turn hd hagree hknown hasked he (hfaults e he) hturn
  have hlater := later_run hidle.settled acts
  obtain ⟨hkeeps, hpieces⟩ := hrun.cut hd hknown hasked hleft
  have hagain := Store.open_again hopen (hlater.keeps.trans hkeeps)
  refine ⟨_, hagain, fun i hi hbit => ?_⟩
  rw [hlater.resume_eq] at hpieces
  obtain ⟨data, hdata, hlies⟩ := hpieces i hi hbit
  obtain ⟨s', hread⟩ := Store.readPiece_of_lies (Store.handles_open hagain left)
    (Store.fits_open hagain) hd hi hbit (hlies.extends hlater.grows.layout.symm (.refl _))
  exact ⟨data, congrArg Prod.fst hread, hdata⟩

/-- A crash while the bitmap of a second piece is being written, over a resume file that is longer
than the bitmap. -/
theorem resume_after_crash_torn_bitmap :
    let d : Descriptor := ⟨⟨.zero 20⟩, 4, 2, [.zero 20, .zero 20], [⟨"a", 3⟩, ⟨"b", 1⟩]⟩
    let tree : FileTree := ⟨[([['t']], .directory), ([['t'], ['r']], .file 0),
      ([['t'], ['a']], .file 1)], [[0x80, 7], [1, 2]], [], by decide, by decide⟩
    let acts : List Act := .write 1 [3, 4] :: List.replicate 6 (.proceed 0 none)
    d.check = .ok () ∧ (Store.placesOf tree ['t'] ['r'] d).Nodup ∧
      Agree acts ∧ (∀ e ∈ acts, e.fault? = none) ∧
      ∃ s, Store.open_ tree ['t'] d ['r'] = (.ok s, tree) ∧ s.Intact tree ∧
        (∀ i data, .write i data ∈ acts → s.hasPiece i = false) ∧
        ∃ left, ((idle s tree).run acts).Cut left ∧
          ∃ s', Store.open_ left ['t'] d ['r'] = (.ok s', left) ∧ s'.hasPiece 0 = true ∧
            s'.hasPiece 1 = true ∧ (s'.readPiece left 0).1 = some [1, 2] ∧
            (s'.readPiece left 1).1 = some [3, 4] := by
  have hopen : Store.open_ ⟨[([['t']], .directory), ([['t'], ['r']], .file 0),
      ([['t'], ['a']], .file 1)], [[0x80, 7], [1, 2]], [], by decide, by decide⟩ ['t']
    ⟨⟨.zero 20⟩, 4, 2, [.zero 20, .zero 20], [⟨"a", 3⟩, ⟨"b", 1⟩]⟩ ['r'] = (.ok _, _) := rfl
  have hwritten : ∀ (i : PieceIndex) (data : Bytes), Act.write i data ∈
      .write 1 [3, 4] :: List.replicate 6 (.proceed 0 none) → i = 1 ∧ data = [3, 4] := by
    simp
  have hafter := resume_after_crash rfl hopen (by decide) (by decide +kernel)
    (.write 1 [3, 4] :: List.replicate 6 (.proceed 0 none)) (by decide)
  refine ⟨rfl, by decide, by decide, by decide, _, hopen, by decide +kernel, ?_, _,
    .torn 0 ⟨1, .other ""⟩, ?_⟩
  · intro i data hmem
    rw [(hwritten i data hmem).1]
    decide +kernel
  obtain ⟨s', hagain, hpieces⟩ := hafter (fun i data hmem => (hwritten i data hmem).1 ▸ by
    decide +kernel) (by decide) (.torn 0 ⟨1, .other ""⟩)
  have hbits : some (true, true) = some (s'.hasPiece 0, s'.hasPiece 1) := by
    refine Eq.trans ?_
      (congrArg (fun x => x.1.toOption.map fun s => (s.hasPiece 0, s.hasPiece 1)) hagain)
    decide +kernel
  simp only [Option.some.injEq, Prod.mk.injEq] at hbits
  refine ⟨s', hagain, hbits.1.symm, hbits.2.symm, ?_, ?_⟩
  · obtain ⟨data, hread, ⟨-, hold⟩ | ⟨-, hnew⟩⟩ := hpieces 0 (by decide) hbits.1.symm
    · rw [hread, ← hold]
      decide +kernel
    · cases (hwritten 0 data hnew).1
  · obtain ⟨data, hread, ⟨hbit, -⟩ | ⟨-, hnew⟩⟩ := hpieces 1 (by decide) hbits.2.symm
    · refine absurd hbit ?_
      decide +kernel
    · rw [hread, (hwritten 1 data hnew).2]

/-- A resume file that is too short says nothing.  When the first bitmap fails to be written, with
no byte of it in the file, the old bits count in the next store, for pieces that nobody has
written. -/
theorem reported_after_failed_rewrite :
    let d : Descriptor := ⟨⟨.zero 20⟩, 12, 1, List.replicate 12 (.zero 20), [⟨"a", 12⟩]⟩
    let tree : FileTree :=
      ⟨[([['t']], .directory), ([['t'], ['r']], .file 0)], [[0xFF]], [], by decide, by decide⟩
    let acts : List Act := .write 8 [1] :: List.replicate 4 (.proceed 0 none) ++
      [.proceed 0 (some ⟨0, .other "No space left on device (os error 28)"⟩), .proceed 0 none]
    d.check = .ok () ∧ (Store.placesOf tree ['t'] ['r'] d).Nodup ∧ Agree acts ∧
      ∃ s, Store.open_ tree ['t'] d ['r'] = (.ok s, tree) ∧ s.completed.bytes = [0, 0] ∧
        let a := (idle s tree).run acts
        a.tree.readFile s.resumePath = .ok [0xFF, 0] ∧
        ∃ s', Store.open_ a.tree ['t'] d ['r'] = (.ok s', a.tree) ∧
          (List.range 12).filter (fun i => s'.hasPiece (UInt32.ofNat i)) = List.range 8 ∧
          (s'.readPiece a.tree 0).1 = some [0] := by
  have hopen : Store.open_
    ⟨[([['t']], .directory), ([['t'], ['r']], .file 0)], [[0xFF]], [], by decide, by decide⟩ ['t']
    ⟨⟨.zero 20⟩, 12, 1, List.replicate 12 (.zero 20), [⟨"a", 12⟩]⟩ ['r'] = (.ok _, _) := rfl
  have hlater := later_run (manned_idle hopen).settled
  have hagain := fun acts => Store.open_again hopen (hlater acts).keeps
  exact ⟨by decide +kernel, by decide, by decide, _, hopen, by decide +kernel, by decide +kernel,
    _, hagain _, by decide +kernel, by decide +kernel⟩

end Archive

end Torrent
