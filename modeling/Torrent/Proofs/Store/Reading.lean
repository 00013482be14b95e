import Torrent.Proofs.Store.Positions

/-!
# Reading a piece back

Reading opens the files of a stretch and takes its chunks one after the other.
`Reading.Follows` says that it is on its way to a block; where the chunks of the
block are in their files it stays so, nothing has to be made, and every step
brings it closer to its end (`Reading.Follows.step`).

So a stretch of a piece that lies in its files is read (`Store.readBlock_of_lies`),
and what was read lies in its files (`Store.lies_of_readPiece`).
-/

namespace Torrent

variable {s s' : Store} {t t' : FileTree} {i : PieceIndex} {data block : Bytes} {cs : List Chunk}

/-! ## The files that are read -/

namespace Store

variable {file : Nat} {id : FileId}

/-- What reading takes for a file of a store: the file that is open, or else the one that its path
leads to. -/
def Reaches (s : Store) (t : FileTree) (file : Nat) (id : FileId) : Prop :=
  ∃ slot, s.slots[file]? = some slot ∧
    (slot.handle = some id ∨ slot.handle = none ∧ t.Opened slot.path id)

/-- Where the open files are in their places, what is read is the file there. -/
theorem Reaches.fileAt (h : s.Reaches t' file id) (hs : s.Handles t) (hkeeps : t.Keeps t') :
    s.FileAt t' file id := by
  obtain ⟨slot, hslot, hopen | ⟨-, hopened⟩⟩ := h
  · have hopened := hs slot (List.mem_of_getElem? hslot) id hopen
    exact ⟨slot.path, by rw [path?, hslot]; rfl, hopened.keeps hkeeps⟩
  · exact ⟨slot.path, by rw [path?, hslot]; rfl, hopened⟩

/-- Opening a slot gives its open file, or opens the one at its path. -/
theorem openSlot_eq_ok (h : s.openSlot t file = (.ok id, s', t')) :
    ∃ slot, s.slots[file]? = some slot ∧
      (slot.handle = some id ∧ s' = s ∧ t' = t ∨
        slot.handle = none ∧ t.Extends t' ∧ t'.Opened slot.path id ∧
          s' = { s with slots := s.slots.set file { slot with handle := some id } }) := by
  simp only [openSlot] at h
  split at h
  next => cases h
  next slot hslot =>
    refine ⟨slot, hslot, ?_⟩
    split at h
    next hid =>
      cases h
      exact .inl ⟨hid, rfl, rfl⟩
    next hclosed =>
      split at h
      next => cases h
      next hparent =>
        obtain ⟨hfurnished, hthere⟩ := makeParent_spec hparent
        split at h
        next => cases h
        next hopen =>
          cases h
          obtain ⟨hextends, hleads, -⟩ := FileTree.openFile_spec hopen
          refine .inr ⟨hclosed, hfurnished.extends.trans hextends, ⟨hleads, ?_⟩, rfl⟩
          intro parent hp
          rcases hthere rfl parent hp with hnil | hdirectory
          · exact .inl hnil
          · exact .inr (hextends.toKeeps.isDirectory hdirectory)

/-- A slot that was opened to read is what was read of it, and no other file is taken for another. -/
theorem openSlot_reaches (h : s.openSlot t file = (.ok id, s', t')) :
    t.Extends t' ∧ ∀ later, t'.Keeps later →
      s.Reaches later file id ∧ ∀ k other, s'.Reaches later k other → s.Reaches later k other := by
  obtain ⟨slot, hslot, ⟨hid, rfl, rfl⟩ | ⟨hclosed, hextends, hopened, rfl⟩⟩ := openSlot_eq_ok h
  · exact ⟨.refl _, fun later _ => ⟨⟨slot, hslot, .inl hid⟩, fun _ _ hother => hother⟩⟩
  · refine ⟨hextends, fun later hkeeps => ?_⟩
    have hreaches : s.Reaches later file id :=
      ⟨slot, hslot, .inr ⟨hclosed, hopened.keeps hkeeps⟩⟩
    refine ⟨hreaches, fun k other hother => ?_⟩
    obtain ⟨slot', hslot', hfile⟩ := hother
    by_cases hk : k = file
    · subst hk
      obtain ⟨hlt, -⟩ := List.getElem?_eq_some_iff.1 hslot
      rw [List.getElem?_set_self hlt] at hslot'
      cases hslot'
      rcases hfile with hopen | ⟨hnone, -⟩
      · cases hopen
        exact hreaches
      · cases hnone
    · rw [List.getElem?_set_ne (Ne.symm hk)] at hslot'
      exact ⟨slot', hslot', hfile⟩

end Store

namespace Reading

variable {r r' : Reading}

/-- Opening files to read adds names and nothing else. -/
theorem step_handles (hs : s.Handles t) (h : r.step s t = (r', s', t')) :
    t.Extends t' ∧ s'.Handles t' := by
  rcases step_opens h with ⟨rfl, rfl⟩ | ⟨file, result, hopen⟩
  · exact ⟨.refl _, hs⟩
  · exact ⟨(Store.openSlot_spec hs hopen).1, (Store.openSlot_spec hs hopen).2.1⟩

/-- Opening files to read keeps the store settled. -/
theorem step_settled (hs : s.Settled t) (h : r.step s t = (r', s', t')) : s'.Settled t' := by
  rcases step_opens h with ⟨rfl, rfl⟩ | ⟨file, result, hopen⟩
  · exact hs
  · exact hs.openSlot hopen

/-- Opening files to read keeps the store housed and every chunk in its place. -/
theorem step_spec (hs : s.Housed t) (h : r.step s t = (r', s', t')) :
    t.Extends t' ∧ s'.Housed t' := by
  have hextends := (step_handles hs.handles h).1
  exact ⟨hextends, hs.keeps (step_store h).1 hextends.toKeeps (step_settled hs.toSettled h)⟩

/-- What is kept by every step of reading is kept by so many steps. -/
theorem run_moments {P : Store → FileTree → Prop} {n : Nat} (h : P s t)
    (hkept : ∀ r s t r' s' t', Reading.step r s t = (r', s', t') → P s t → P s' t')
    (hrun : Reading.run n r s t = (r', s', t')) : P s' t' := by
  induction n generalizing r s t with
  | zero =>
      cases hrun
      exact h
  | succ n ih =>
      obtain ⟨⟨r₁, s₁, t₁⟩, hstep⟩ : ∃ x, r.step s t = x := ⟨_, rfl⟩
      simp only [Reading.run, hstep] at hrun
      exact ih (hkept _ _ _ _ _ _ hstep h) hrun

/-! ## On the way to a block -/

/-- What is done of a block and the chunks for the segments that are left make up the block. -/
def Ahead (cs : List Chunk) (block : Bytes) (left : List Segment) (done : Bytes) : Prop :=
  ∃ rest, done ++ rest = block ∧ (left.map Segment.length).sum = rest.length ∧
    ∀ c ∈ deal left rest, c ∈ cs

/-- Reading is on its way to a block that these chunks make up. -/
def Follows (s : Store) (t : FileTree) (cs : List Chunk) (block : Bytes) : Reading → Prop
  | .taking left done => Ahead cs block left done
  | .opened id left done =>
    Ahead cs block left done ∧ ∃ g rest, left = g :: rest ∧ s.FileAt t g.file id
  | .finished result => result = some block

theorem Follows.keeps (h : r.Follows s t cs block) (hlayout : s'.layout = s.layout)
    (hkeeps : t.Keeps t') : r.Follows s' t' cs block := by
  cases r with
  | taking left done => exact h
  | opened id left done =>
      obtain ⟨hahead, g, rest, hleft, hfile⟩ := h
      exact ⟨hahead, g, rest, hleft, hfile.keeps hlayout hkeeps⟩
  | finished result => exact h

/-- Reading that has no step left is over. -/
theorem Follows.eq_finished (h : r.Follows s t cs block) (hleft : r.stepsLeft = 0) :
    r = .finished (some block) := by
  cases r with
  | taking left done => simp [stepsLeft] at hleft
  | opened id left done =>
      obtain ⟨-, g, rest, rfl, -⟩ := h
      simp [stepsLeft] at hleft
  | finished result => exact congrArg Reading.finished h

/-- A step on the way to a block whose chunks are in their files leaves the files alone and goes on
to the same block. -/
theorem Follows.step (h : r.Follows s t cs block) (hs : s.Handles t)
    (hheld : ∀ c ∈ cs, s.Holds t c) (hstep : r.step s t = (r', s', t')) :
    t' = t ∧ s'.Handles t ∧ s'.layout = s.layout ∧ r'.Follows s' t cs block ∧
      r'.stepsLeft = r.stepsLeft - 1 := by
  cases r with
  | taking left done =>
      cases left with
      | nil =>
          obtain ⟨rest, hblock, hsum, -⟩ := h
          obtain rfl : rest = [] := List.eq_nil_of_length_eq_zero hsum.symm
          cases hstep
          rw [List.append_nil] at hblock
          exact ⟨rfl, hs, rfl, congrArg some hblock, rfl⟩
      | cons g left =>
          obtain ⟨rest, hblock, hsum, hcs⟩ := h
          obtain ⟨id, hfile, -, -⟩ := hheld _ (hcs _ (List.mem_cons_self ..))
          obtain ⟨s₁, hopen, hs₁, hlayout⟩ := Store.openSlot_of_fileAt hs hfile
          simp only [Reading.step, hopen] at hstep
          cases hstep
          refine ⟨rfl, hs₁, hlayout, ⟨⟨rest, hblock, hsum, hcs⟩, g, left, rfl, ?_⟩, rfl⟩
          exact hfile.keeps hlayout (.refl t)
  | opened id left done =>
      obtain ⟨⟨rest, hblock, hsum, hcs⟩, g, left, rfl, hfile⟩ := h
      obtain ⟨id', hfile', hcontent, hlength⟩ := hheld _ (hcs _ (List.mem_cons_self ..))
      obtain rfl := hfile'.unique hfile
      dsimp only at hcontent hlength
      have hread : t.readAt? id' g.start g.length = some (rest.take g.length) :=
        FileTree.readAt?_eq_some_iff.2 ⟨hcontent, hlength⟩
      simp only [Reading.step, hread] at hstep
      cases hstep
      refine ⟨rfl, hs, rfl, ⟨rest.drop g.length, ?_, ?_, fun c hc => ?_⟩, ?_⟩
      · rw [List.append_assoc, List.take_append_drop, hblock]
      · rw [List.map_cons, List.sum_cons] at hsum
        rw [List.length_drop]
        omega
      · exact hcs c (List.mem_cons_of_mem _ hc)
      · simp only [stepsLeft, List.length_cons]
        omega
  | finished result =>
      cases hstep
      exact ⟨rfl, hs, rfl, h, rfl⟩

/-- Chunks that are in their files are read. -/
theorem Follows.run (h : r.Follows s t cs block) (hs : s.Handles t)
    (hheld : ∀ c ∈ cs, s.Holds t c) :
    ∃ s', Reading.run r.stepsLeft r s t = (.finished (some block), s', t) := by
  generalize hleft : r.stepsLeft = n
  induction n generalizing r s with
  | zero => exact ⟨s, by rw [h.eq_finished hleft]; rfl⟩
  | succ n ih =>
      obtain ⟨⟨r', s', t'⟩, hstep⟩ : ∃ x, r.step s t = x := ⟨_, rfl⟩
      obtain ⟨rfl, hs', hlayout, hfollows, hsteps⟩ := h.step hs hheld hstep
      obtain ⟨s'', hrun⟩ := ih hfollows hs' (fun c hc => (hheld c hc).of_layout hlayout)
        (by rw [hsteps, hleft, Nat.add_sub_cancel])
      refine ⟨s'', ?_⟩
      unfold Reading.run
      rw [hstep]
      exact hrun

theorem run_finished (n : Nat) (result : Option Bytes) :
    Reading.run n (.finished result) s t = (.finished result, s, t) := by
  induction n with
  | zero => rfl
  | succ n ih => exact ih

/-- What was read is in the files that were read. -/
theorem run_taking {n : Nat} {gs : List Segment} {done : Bytes}
    (hrun : Reading.run n (.taking gs done) s t = (.finished (some block), s', t')) :
    ∃ data, block = done ++ data ∧ (gs.map Segment.length).sum = data.length ∧ t.Extends t' ∧
      ∀ c ∈ deal gs data, ∃ id, s.Reaches t' c.1.file id ∧
        (t'.content id).stretch c.1.start c.1.length = c.2 ∧ c.2.length = c.1.length := by
  induction gs generalizing n s t done with
  | nil =>
      cases n with
      | zero => cases hrun
      | succ n =>
          simp only [Reading.run, Reading.step, run_finished] at hrun
          cases hrun
          refine ⟨[], (List.append_nil _).symm, rfl, .refl _, fun c hc => ?_⟩
          cases hc
  | cons g rest ih =>
      cases n with
      | zero => cases hrun
      | succ n =>
          rcases hopen : s.openSlot t g.file with ⟨_ | id, s₁, t₁⟩
          · simp only [Reading.run, Reading.step, hopen, run_finished] at hrun
            cases hrun
          · simp only [Reading.run, Reading.step, hopen] at hrun
            cases n with
            | zero => cases hrun
            | succ n =>
                rcases hread : t₁.readAt? id g.start g.length with _ | bytes
                · simp only [Reading.run, Reading.step, hread, run_finished] at hrun
                  cases hrun
                · simp only [Reading.run, Reading.step, hread] at hrun
                  obtain ⟨hextends, hlater⟩ := Store.openSlot_reaches hopen
                  obtain ⟨hcontent, hlength⟩ := FileTree.readAt?_eq_some_iff.1 hread
                  obtain ⟨data, rfl, hsum, hextends', hreached⟩ := ih hrun
                  obtain ⟨hfile, hothers⟩ := hlater t' hextends'.toKeeps
                  refine ⟨bytes ++ data, List.append_assoc .., ?_, hextends.trans hextends', ?_⟩
                  · rw [List.map_cons, List.sum_cons, List.length_append, hsum, hlength]
                  · intro c hc
                    simp only [deal] at hc
                    rw [List.take_left' hlength, List.drop_left' hlength] at hc
                    rcases List.mem_cons.1 hc with rfl | hc
                    · refine ⟨id, hfile, ?_, hlength⟩
                      rw [hextends'.content]
                      exact hcontent
                    · obtain ⟨id', hreaches, hthere⟩ := hreached c hc
                      exact ⟨id', hothers _ _ hreaches, hthere⟩

end Reading

/-! ## Pieces read back -/

namespace Store

/-- The reading of a stretch of a piece that is known as there sets out for its segments. -/
theorem Stretch.read {gs : List Segment} {start length : Nat} (h : s.Stretch i start length gs)
    (hbit : s.hasPiece i = true) (hlength : 0 < length) :
    s.read i start length = .taking gs [] := by
  obtain ⟨⟨pieceLen, hpiece, hend⟩, hsegments⟩ := h
  simp only [Store.read]
  rw [hbit, hpiece]
  simp only [Bool.true_eq_false, if_false, hsegments]
  rw [if_neg (by omega)]

theorem Stretch.follows {gs : List Segment} {start : Nat} (h : s.Stretch i start block.length gs) :
    (Reading.taking gs []).Follows s t (deal gs block) block :=
  ⟨_, rfl, (Walk.of_segmentsFrom h.segments).spec.1, fun _ hc => hc⟩

/-- A stretch of a piece that is known as there is read if its chunks are in their files, and
nothing has to be made for it. -/
theorem Stretch.readBlock {gs : List Segment} {start : Nat}
    (h : s.Stretch i start block.length gs) (hs : s.Handles t) (hbit : s.hasPiece i = true)
    (hblock : 0 < block.length) (hheld : ∀ c ∈ deal gs block, s.Holds t c) :
    ∃ s', s.readBlock t i start block.length = (some block, s', t) := by
  obtain ⟨s', hrun⟩ := h.follows.run hs hheld
  refine ⟨s', ?_⟩
  simp only [Store.readBlock]
  rw [h.read hbit hblock, hrun]

/-- The segments of a stretch of a piece that lies in its files. -/
theorem Lies.stretch (h : s.Lies t i data []) {start length : Nat}
    (hend : start + length ≤ data.length) :
    ∃ gs, s.Stretch i start length gs ∧
      ∀ c ∈ deal gs ((data.drop start).take length), s.Holds t c := by
  obtain ⟨gs, hsegments, hheld⟩ := h.holds_slice hend
  obtain ⟨_, _, hlaid, _⟩ := h
  obtain ⟨pieceLen, hpiece, hdata⟩ := hlaid.length
  exact ⟨gs, ⟨⟨pieceLen, hpiece, by omega⟩, hsegments⟩, hheld⟩

/-- The reading of a stretch of a piece that lies in its files sets out for the bytes there. -/
theorem Lies.read (h : s.Lies t i data []) (hbit : s.hasPiece i = true) {start length : Nat}
    (hlength : 0 < length) (hend : start + length ≤ data.length) :
    ∃ gs, s.segments? ((s.pieceStart i).toNat + start) length = some gs ∧
      s.read i start length = .taking gs [] ∧
      (s.read i start length).Follows s t (deal gs ((data.drop start).take length))
        ((data.drop start).take length) := by
  obtain ⟨gs, hstretch, -⟩ := h.stretch hend
  have hblock := Bytes.length_slice hend
  refine ⟨gs, hstretch.segments, hstretch.read hbit hlength, ?_⟩
  rw [hstretch.read hbit hlength]
  exact Stretch.follows (hblock.symm ▸ hstretch)

/-- A stretch of a piece that is known as there and lies in its files is read, and nothing has to be
made for it. -/
theorem readBlock_of_lies (hs : s.Handles t) (hbit : s.hasPiece i = true)
    (h : s.Lies t i data []) {start length : Nat} (hlength : 0 < length)
    (hend : start + length ≤ data.length) :
    ∃ s', s.readBlock t i start length = (some ((data.drop start).take length), s', t) := by
  obtain ⟨gs, hstretch, hheld⟩ := h.stretch hend
  have hblock := Bytes.length_slice hend
  rw [← hblock] at hstretch
  have hread := hstretch.readBlock hs hbit (by omega) hheld
  rwa [hblock] at hread

/-- A piece that is known as there and lies in its files is read whole. -/
theorem readPiece_of_lies {d : Descriptor} (hs : s.Handles t) (hfits : s.Fits d) (hd : d.Sound)
    (hi : i.toNat < d.pieceCount) (hbit : s.hasPiece i = true) (h : s.Lies t i data []) :
    ∃ s', s.readPiece t i = (some data, s', t) := by
  obtain ⟨_, _, hlaid, _⟩ := id h
  have hlengthAt := hlaid.length_eq hfits hd
  obtain ⟨length, hlength, hdata⟩ := hlaid.length
  have hpos : 0 < length.toNat := by
    rw [← hdata, hlengthAt]
    exact hd.lengthAt_pos hi
  have hsize : length.toNat < UInt32.size := by
    rw [← hdata, hlengthAt]
    exact hd.lengthAt_lt _
  obtain ⟨s', hblock⟩ := readBlock_of_lies hs hbit h hpos
    (show 0 + length.toNat ≤ data.length by omega)
  refine ⟨s', ?_⟩
  simp only [readPiece]
  rw [hlength]
  dsimp only
  rw [if_pos hsize, hblock, List.drop_zero, ← hdata, List.take_length]

theorem readPiece_of_placed {d : Descriptor} {hash : Octets 20} (hs : s.Housed t)
    (hfits : s.Fits d) (hd : d.Sound) (hi : i.toNat < d.pieceCount)
    (hbit : s.hasPiece i = true) (h : s.Placed t i hash []) :
    ∃ data, (s.readPiece t i).1 = some data ∧ data.length = d.lengthAt i.toNat ∧
      Sha1.digest data = hash := by
  obtain ⟨data, hdigest, hlies⟩ := h
  obtain ⟨s', hread⟩ := readPiece_of_lies hs.handles hfits hd hi hbit hlies
  obtain ⟨_, _, hlaid, _⟩ := hlies
  exact ⟨data, congrArg Prod.fst hread, hlaid.length_eq hfits hd, hdigest⟩

/-- How a stretch is read depends on the layout of the store and the bit of the piece. -/
theorem read_of_layout (hlayout : s'.layout = s.layout) (hbit : s'.hasPiece i = s.hasPiece i)
    (start length : Nat) : s'.read i start length = s.read i start length := by
  simp only [Store.read]
  rw [hbit, pieceLen?_of_layout hlayout, segments?_of_layout hlayout, pieceStart_of_layout hlayout]

/-- Reading refuses a stretch at once, or sets out for its segments. -/
theorem read_cases (s : Store) (i : PieceIndex) (start length : Nat) :
    s.read i start length = .finished none ∨
      ∃ pieceLen gs, s.hasPiece i = true ∧ s.pieceLen? i = some pieceLen ∧ 0 < length ∧
        start + length ≤ pieceLen.toNat ∧
        s.segments? ((s.pieceStart i).toNat + start) length = some gs ∧
        s.read i start length = .taking gs [] := by
  simp only [Store.read]
  split
  next => exact .inl rfl
  next hbit =>
    split
    next => exact .inl rfl
    next pieceLen hpiece =>
      split
      next => exact .inl rfl
      next hstretch =>
        split
        next => exact .inl rfl
        next gs hsegments =>
          exact .inr ⟨pieceLen, gs, by simpa using hbit, hpiece, by omega, by omega, hsegments, rfl⟩

/-- What is read of a stretch, if anything is: the piece is known as there, the stretch lies in it,
and its chunks are in the files that were read. -/
theorem readBlock_eq_some {start length : Nat}
    (h : s.readBlock t i start length = (some block, s', t')) :
    s.hasPiece i = true ∧ 0 < length ∧ block.length = length ∧ t.Extends t' ∧
      (∃ pieceLen, s.pieceLen? i = some pieceLen ∧ start + length ≤ pieceLen.toNat) ∧
      ∃ gs, s.segments? ((s.pieceStart i).toNat + start) length = some gs ∧
        ∀ c ∈ deal gs block, ∃ id, s.Reaches t' c.1.file id ∧
          (t'.content id).stretch c.1.start c.1.length = c.2 ∧ c.2.length = c.1.length := by
  simp only [readBlock] at h
  split at h
  next result s₁ t₁ hrun =>
    cases h
    rcases s.read_cases i start length with hread |
      ⟨pieceLen, gs, hbit, hpiece, hpos, hend, hsegments, hread⟩
    · rw [hread, Reading.run_finished] at hrun
      cases hrun
    · rw [hread] at hrun
      obtain ⟨data, hblock, hsum, hextends, hchunks⟩ := Reading.run_taking hrun
      obtain rfl : block = data := hblock
      refine ⟨hbit, hpos, ?_, hextends, ⟨pieceLen, hpiece, hend⟩, gs, hsegments, hchunks⟩
      rw [← hsum, (Walk.of_segmentsFrom hsegments).spec.1]
  next => cases h

/-- What is kept by every step of reading is kept when a stretch is read. -/
theorem readBlock_moments {P : Store → FileTree → Prop} {start length : Nat}
    {result : Option Bytes} (h : P s t)
    (hkept : ∀ r s t r' s' t', Reading.step r s t = (r', s', t') → P s t → P s' t')
    (hread : s.readBlock t i start length = (result, s', t')) : P s' t' := by
  simp only [readBlock] at hread
  split at hread
  next hrun =>
    cases hread
    exact Reading.run_moments h hkept hrun
  next hrun =>
    cases hread
    exact Reading.run_moments h hkept hrun

/-- Reading leaves a store as it is but for files that are open in their places. -/
theorem readBlock_keeps {start length : Nat} {result : Option Bytes} (hs : s.Handles t)
    (h : s.readBlock t i start length = (result, s', t')) :
    t.Extends t' ∧ s'.Handles t' ∧ s'.layout = s.layout ∧ s'.completed = s.completed := by
  refine readBlock_moments (P := fun s₁ t₁ => t.Extends t₁ ∧ s₁.Handles t₁ ∧
    s₁.layout = s.layout ∧ s₁.completed = s.completed) ⟨.refl t, hs, rfl, rfl⟩ ?_ h
  rintro r s₁ t₁ r' s' t' hstep ⟨hextends, hs₁, hlayout, hcompleted⟩
  obtain ⟨hextends', hs'⟩ := Reading.step_handles hs₁ hstep
  obtain ⟨hlayout', hcompleted', -⟩ := Reading.step_store hstep
  exact ⟨hextends.trans hextends', hs', hlayout'.trans hlayout, hcompleted'.trans hcompleted⟩

theorem readBlock_housed {start length : Nat} {result : Option Bytes} (hs : s.Housed t)
    (h : s.readBlock t i start length = (result, s', t')) : s'.Housed t' :=
  readBlock_moments hs (fun _ _ _ _ _ _ hstep hs₁ => (Reading.step_spec hs₁ hstep).2) h

/-- A piece that was read lies in its files. -/
theorem lies_of_readPiece (hs : s.Handles t) (h : s.readPiece t i = (some data, s', t')) :
    s.Lies t' i data [] := by
  simp only [readPiece] at h
  split at h
  next => cases h
  next length hlength =>
    split at h
    next =>
      obtain ⟨-, -, hwhole, hextends, -, gs, hsegments, hchunks⟩ := readBlock_eq_some h
      refine ⟨gs, deal gs data, ⟨⟨length, hlength, hwhole⟩, ?_⟩, (List.append_nil _).symm, ?_⟩
      · rw [hwhole]
        exact hsegments
      · intro c hc
        obtain ⟨id, hreaches, hthere⟩ := hchunks c hc
        exact ⟨id, hreaches.fileAt hs hextends.toKeeps, hthere⟩
    next => cases h

end Store

end Torrent
