import Mathlib.Algebra.Ring.Nat
import Mathlib.Data.List.Pairwise
import Torrent.Proofs.Descriptor.Tiling
import Torrent.Proofs.Store.Growth

/-!
# Segments of pieces

`Walk` is the way through the files that a range takes: it passes the files in
front, takes a segment of each file it meets, and stops where the range ends.
From it is read off that the segments lie in different files, one behind the
other, each inside its file (`Walk.spec`), that every byte of the range goes to
the place of its own position (`Walk.chunk`) and that every position of the range
is reached (`Walk.reaches`).

The pieces of a torrent are ranges that do not meet, so a segment of one piece is
apart from every segment of another (`Store.Laid.apart`).

`Store.Laid` says which segments hold the bytes of a piece, and `Store.Stretch` which
those of a part of it are.  They speak of the layout of a store alone, so they stay
while the store is used.
-/

namespace Torrent

/-! ## Bytes dealt out -/

theorem fst_deal (gs : List Segment) (data : Bytes) : (deal gs data).map Prod.fst = gs := by
  induction gs generalizing data with
  | nil => rfl
  | cons g rest ih =>
      simp only [deal]
      rw [List.map_cons, ih]

theorem mem_of_mem_deal {gs : List Segment} {data : Bytes} {c : Chunk} (h : c ∈ deal gs data) :
    c.1 ∈ gs := by
  rw [← fst_deal gs data]
  exact List.mem_map_of_mem h

/-- Every segment gets as many bytes as it is long, if there are enough. -/
theorem length_of_mem_deal {gs : List Segment} {data : Bytes}
    (hlength : (gs.map Segment.length).sum ≤ data.length) {c : Chunk} (h : c ∈ deal gs data) :
    c.2.length = c.1.length := by
  induction gs generalizing data with
  | nil => cases h
  | cons g rest ih =>
      rw [List.map_cons, List.sum_cons] at hlength
      simp only [deal] at h
      rcases List.mem_cons.1 h with rfl | h
      · dsimp only
        rw [List.length_take]
        omega
      · refine ih ?_ h
        rw [List.length_drop]
        omega

/-! ## Segments of a range -/

/-- Two segments that do not meet. -/
def Segment.Apart (g g' : Segment) : Prop :=
  g.file = g'.file → g.start + g.length ≤ g'.start ∨ g'.start + g'.length ≤ g.start

/-- Where a file begins among files of these lengths. -/
def offset (lengths : List Nat) (file : Nat) : Nat := (lengths.take file).sum

theorem offset_cons_succ (size : Nat) (rest : List Nat) (file : Nat) :
    offset (size :: rest) (file + 1) = size + offset rest file := by
  simp only [offset]
  rw [List.take_succ_cons, List.sum_cons]

/-- A file ends before a later one begins. -/
theorem offset_add_le {lengths : List Nat} {file file' size : Nat}
    (hsize : lengths[file]? = some size) (hlt : file < file') :
    offset lengths file + size ≤ offset lengths file' := by
  obtain ⟨hfile, rfl⟩ := List.getElem?_eq_some_iff.1 hsize
  obtain ⟨k, rfl⟩ := Nat.exists_eq_add_of_lt hlt
  simp only [offset]
  rw [Nat.add_assoc, List.take_add, List.sum_append, List.drop_eq_getElem_cons hfile,
    List.take_succ_cons, List.sum_cons]
  omega

/-- A position of the torrent is one place in one file. -/
theorem place_unique {lengths : List Nat} {file file' size size' start start' : Nat}
    (hsize : lengths[file]? = some size) (hsize' : lengths[file']? = some size')
    (hstart : start < size) (hstart' : start' < size')
    (heq : offset lengths file + start = offset lengths file' + start') :
    file = file' ∧ start = start' := by
  rcases Nat.lt_trichotomy file file' with hlt | rfl | hlt
  · have := offset_add_le hsize hlt
    omega
  · exact ⟨rfl, by omega⟩
  · have := offset_add_le hsize' hlt
    omega

/-- The way of a range through the files from number `file` on, which have these lengths. -/
inductive Walk : Nat → List Nat → Nat → Nat → List Segment → Prop
  | done (file : Nat) (lengths : List Nat) (start : Nat) : Walk file lengths start 0 []
  | pass {file size start length : Nat} {rest : List Nat} {gs : List Segment}
    (hlength : 0 < length) (hbehind : size ≤ start)
    (hrest : Walk (file + 1) rest (start - size) length gs) :
    Walk file (size :: rest) start length gs
  | take {file size start length : Nat} {rest : List Nat} {gs : List Segment}
    (hlength : 0 < length) (hwithin : start < size)
    (hrest : Walk (file + 1) rest 0 (length - min (size - start) length) gs) :
    Walk file (size :: rest) start length (⟨file, start, min (size - start) length⟩ :: gs)

namespace Walk

variable {file start length : Nat} {lengths : List Nat} {gs : List Segment} {data : Bytes}

theorem of_segmentsFrom (h : segmentsFrom file lengths start length = some gs) :
    Walk file lengths start length gs := by
  induction lengths generalizing file start length gs with
  | nil =>
      simp only [segmentsFrom] at h
      split at h
      next hzero =>
        cases h
        subst hzero
        exact .done file [] start
      next => cases h
  | cons size rest ih =>
      unfold segmentsFrom at h
      dsimp only at h
      split at h
      next hzero =>
        cases h
        subst hzero
        exact .done file (size :: rest) start
      next hlength =>
        split at h
        next hbehind => exact .pass (Nat.pos_of_ne_zero hlength) hbehind (ih h)
        next hwithin =>
          obtain ⟨gs', hgs', rfl⟩ := Option.map_eq_some_iff.1 h
          exact .take (Nat.pos_of_ne_zero hlength) (Nat.lt_of_not_le hwithin) (ih hgs')

theorem segmentsFrom_eq (h : Walk file lengths start length gs) :
    segmentsFrom file lengths start length = some gs := by
  induction h with
  | done =>
      unfold segmentsFrom
      rw [if_pos rfl]
  | pass hlength hbehind hrest ih =>
      unfold segmentsFrom
      dsimp only
      rw [if_neg (Nat.ne_of_gt hlength), if_pos hbehind, ih]
  | take hlength hwithin hrest ih =>
      unfold segmentsFrom
      dsimp only
      rw [if_neg (Nat.ne_of_gt hlength), if_neg (Nat.not_le.2 hwithin), ih]
      rfl

/-- A range is walked to its end exactly if it ends inside the files. -/
theorem exists_iff (file : Nat) (lengths : List Nat) (start length : Nat) :
    (∃ gs, Walk file lengths start length gs) ↔ length = 0 ∨ start + length ≤ lengths.sum := by
  induction lengths generalizing file start length with
  | nil =>
      rw [List.sum_nil]
      constructor
      · rintro ⟨gs, ⟨⟩⟩
        exact .inl rfl
      · intro h
        obtain rfl : length = 0 := by omega
        exact ⟨[], .done file [] start⟩
  | cons size rest ih =>
      rw [List.sum_cons]
      constructor
      · rintro ⟨gs, hwalk⟩
        cases hwalk with
        | done => exact .inl rfl
        | pass hlength hbehind hrest =>
            have := (ih _ _ _).1 ⟨_, hrest⟩
            omega
        | take hlength hwithin hrest =>
            have := (ih _ _ _).1 ⟨_, hrest⟩
            omega
      · intro h
        by_cases hzero : length = 0
        · subst hzero
          exact ⟨[], .done file (size :: rest) start⟩
        · have hlength := Nat.pos_of_ne_zero hzero
          by_cases hbehind : size ≤ start
          · obtain ⟨gs, hrest⟩ := (ih (file + 1) (start - size) length).2 (by omega)
            exact ⟨gs, .pass hlength hbehind hrest⟩
          · obtain ⟨gs, hrest⟩ :=
              (ih (file + 1) 0 (length - min (size - start) length)).2 (by omega)
            exact ⟨_, .take hlength (Nat.lt_of_not_le hbehind) hrest⟩

/-- The segments of a range have its length and lie in files one behind the other. -/
theorem spec (h : Walk file lengths start length gs) :
    (gs.map Segment.length).sum = length ∧ gs.Pairwise (fun g g' => g.file < g'.file) ∧
      ∀ g ∈ gs, file ≤ g.file := by
  induction h with
  | done => exact ⟨rfl, .nil, nofun⟩
  | pass hlength hbehind hrest ih =>
      obtain ⟨hsum, hfiles, hfrom⟩ := ih
      exact ⟨hsum, hfiles, fun g hg => Nat.le_of_succ_le (hfrom g hg)⟩
  | take hlength hwithin hrest ih =>
      obtain ⟨hsum, hfiles, hfrom⟩ := ih
      refine ⟨?_, List.pairwise_cons.2 ⟨hfrom, hfiles⟩, ?_⟩
      · rw [List.map_cons, List.sum_cons, hsum]
        dsimp only
        omega
      · intro g hg
        rcases List.mem_cons.1 hg with rfl | hg
        · exact Nat.le_refl _
        · exact Nat.le_of_succ_le (hfrom g hg)

theorem offset_eq (size : Nat) (rest : List Nat) {file k : Nat} (h : file + 1 ≤ k) :
    offset (size :: rest) (k - file) = size + offset rest (k - (file + 1)) := by
  rw [← offset_cons_succ]
  congr 1
  omega

theorem getElem?_eq (size : Nat) (rest : List Nat) {file k : Nat} (h : file + 1 ≤ k) :
    (size :: rest)[k - file]? = rest[k - (file + 1)]? := by
  have hsub : k - file = k - (file + 1) + 1 := by omega
  rw [hsub, List.getElem?_cons_succ]

/-- A segment of a range is given the bytes that belong to its position, and it lies inside its
file. -/
theorem chunk (h : Walk file lengths start length gs) (hdata : data.length = length) :
    ∀ c ∈ deal gs data, ∃ p size, c.2 = (data.drop p).take c.1.length ∧
      p + c.1.length ≤ length ∧ 0 < c.1.length ∧
      offset lengths (c.1.file - file) + c.1.start = start + p ∧
      lengths[c.1.file - file]? = some size ∧ c.1.start + c.1.length ≤ size := by
  induction h generalizing data with
  | done => exact nofun
  | @pass file size start length rest gs hlength hbehind hrest ih =>
      intro c hc
      obtain ⟨p, size', hbytes, hend, hpos, hat, hsize, hinside⟩ := ih hdata c hc
      have hfile : file + 1 ≤ c.1.file := hrest.spec.2.2 c.1 (mem_of_mem_deal hc)
      rw [offset_eq size rest hfile, getElem?_eq size rest hfile]
      exact ⟨p, size', hbytes, hend, hpos, by omega, hsize, hinside⟩
  | @take file size start length rest gs hlength hwithin hrest ih =>
      intro c hc
      simp only [deal] at hc
      rcases List.mem_cons.1 hc with rfl | hc
      · refine ⟨0, size, rfl, by dsimp only; omega, by dsimp only; omega, ?_, ?_, ?_⟩
        · simp [offset]
        · simp
        · dsimp only
          omega
      · have hrestLength : (data.drop (min (size - start) length)).length =
            length - min (size - start) length := by
          rw [List.length_drop, hdata]
        obtain ⟨p, size', hbytes, hend, hpos, hat, hsize, hinside⟩ := ih hrestLength c hc
        have hfile : file + 1 ≤ c.1.file := hrest.spec.2.2 c.1 (mem_of_mem_deal hc)
        rw [offset_eq size rest hfile, getElem?_eq size rest hfile]
        refine ⟨min (size - start) length + p, size', ?_, by omega, hpos, by omega, hsize,
          hinside⟩
        rw [hbytes, List.drop_drop]

/-- Every position of a range lies in one of its segments. -/
theorem reaches (h : Walk file lengths start length gs) {p : Nat} (hp : p < length) :
    ∃ g ∈ gs, ∃ k < g.length, offset lengths (g.file - file) + g.start + k = start + p := by
  induction h generalizing p with
  | done => exact absurd hp (Nat.not_lt_zero p)
  | @pass file size start length rest gs hlength hbehind hrest ih =>
      obtain ⟨g, hg, k, hk, hat⟩ := ih hp
      refine ⟨g, hg, k, hk, ?_⟩
      rw [offset_eq size rest (hrest.spec.2.2 g hg)]
      omega
  | @take file size start length rest gs hlength hwithin hrest ih =>
      by_cases hhere : p < min (size - start) length
      · refine ⟨_, List.mem_cons_self .., p, hhere, ?_⟩
        simp [offset]
      · obtain ⟨g, hg, k, hk, hat⟩ := ih (p := p - min (size - start) length) (by omega)
        refine ⟨g, List.mem_cons_of_mem _ hg, k, hk, ?_⟩
        rw [offset_eq size rest (hrest.spec.2.2 g hg)]
        omega

/-- The segments of a range stay within it. -/
theorem within (h : Walk file lengths start length gs) {g : Segment} (hg : g ∈ gs) :
    start ≤ offset lengths (g.file - file) + g.start ∧
      offset lengths (g.file - file) + g.start + g.length ≤ start + length := by
  have hlength := Bytes.length_zeros length
  rw [← fst_deal gs (Bytes.zeros length)] at hg
  obtain ⟨c, hc, rfl⟩ := List.mem_map.1 hg
  obtain ⟨p, size, -, hend, -, hat, -⟩ := h.chunk hlength c hc
  omega

end Walk

/-- Two segments of one range do not meet. -/
theorem apart_of_lt {gs : List Segment} (h : gs.Pairwise fun g g' => g.file < g'.file) :
    gs.Pairwise Segment.Apart :=
  h.imp fun hlt heq => absurd heq (Nat.ne_of_lt hlt)

/-- Segments of two ranges that do not meet do not meet. -/
theorem apart_of_ranges {lengths : List Nat} {start length start' length' : Nat}
    {gs gs' : List Segment} (h : segments lengths start length = some gs)
    (h' : segments lengths start' length' = some gs')
    (hranges : start + length ≤ start' ∨ start' + length' ≤ start) {g g' : Segment} (hg : g ∈ gs)
    (hg' : g' ∈ gs') : g.Apart g' := by
  intro hfile
  obtain ⟨hstart, hend⟩ := (Walk.of_segmentsFrom h).within hg
  obtain ⟨hstart', hend'⟩ := (Walk.of_segmentsFrom h').within hg'
  rw [hfile] at hstart hend
  omega

/-! ## Pieces -/

namespace Store

variable {s s' : Store} {d : Descriptor} {i j : PieceIndex} {data data' : Bytes}
  {gs gs' : List Segment}

/-- A store laid out for a description. -/
structure Fits (s : Store) (d : Descriptor) : Prop where
  pieceLength : s.pieceLength = d.pieceLength
  totalLength : s.totalLength = d.totalLength
  pieceCount : s.pieceCount = d.pieceCount

theorem Fits.of_layout (h : s.Fits d) (hlayout : s'.layout = s.layout) : s'.Fits d :=
  ⟨(congrArg Store.pieceLength hlayout).trans h.pieceLength,
    (congrArg Store.totalLength hlayout).trans h.totalLength,
    (congrArg Store.pieceCount hlayout).trans h.pieceCount⟩

theorem fits_open {tree tree' : FileTree} {root name : List Char}
    (h : open_ tree root d name = (.ok s, tree')) : s.Fits d := by
  obtain ⟨-, -, -, -, rfl⟩ := open_eq h
  exact ⟨rfl, rfl, rfl⟩

/-- A piece begins where the pieces before it end: the product is within the words. -/
theorem Fits.toNat_pieceStart (h : s.Fits d) (hd : d.Sound) (i : PieceIndex) :
    (s.pieceStart i).toNat = i.toNat * d.pieceLength.toNat := by
  simp only [pieceStart]
  rw [h.pieceLength, UInt64.toNat_mul, UInt32.toNat_toUInt64]
  exact Nat.mod_eq_of_lt (hd.start_lt_size i)

theorem toNat_min (a b : UInt64) : (min a b).toNat = min a.toNat b.toNat := by
  show (if a ≤ b then a else b).toNat = _
  by_cases hle : a ≤ b
  · rw [if_pos hle, Nat.min_eq_left (UInt64.le_iff_toNat_le.1 hle)]
  · rw [if_neg hle, Nat.min_eq_right]
    exact Nat.le_of_not_le fun hge => hle (UInt64.le_iff_toNat_le.2 hge)

theorem Fits.pieceLen?_eq (h : s.Fits d) (hd : d.Sound) (hi : i.toNat < d.pieceCount) :
    ∃ length, s.pieceLen? i = some length ∧ length.toNat = d.lengthAt i.toNat := by
  have hstart := h.toNat_pieceStart hd i
  have hlt : s.pieceStart i < d.totalLength := by
    rw [UInt64.lt_iff_toNat_lt, hstart]
    exact hd.start_lt hi
  unfold pieceLen?
  rw [h.pieceCount, h.totalLength, h.pieceLength, if_neg (Nat.not_le.2 hi)]
  dsimp only
  rw [if_pos hlt]
  refine ⟨_, rfl, ?_⟩
  rw [toNat_min, UInt64.toNat_sub_of_le _ _ (UInt64.le_of_lt hlt), hstart]
  rfl

/-- Only the pieces of the torrent have a length. -/
theorem Fits.lt_of_pieceLen? (h : s.Fits d) {length : UInt64}
    (hlength : s.pieceLen? i = some length) : i.toNat < d.pieceCount := by
  unfold pieceLen? at hlength
  split at hlength
  next => cases hlength
  next hlt => exact h.pieceCount ▸ Nat.lt_of_not_le hlt

/-- The segments in which the bytes of a piece are laid. -/
structure Laid (s : Store) (i : PieceIndex) (data : Bytes) (gs : List Segment) : Prop where
  length : ∃ length, s.pieceLen? i = some length ∧ data.length = length.toNat
  segments : s.segments? (s.pieceStart i).toNat data.length = some gs

/-- The segments of a stretch that lies within a piece. -/
structure Stretch (s : Store) (i : PieceIndex) (start length : Nat) (gs : List Segment) : Prop where
  within : ∃ pieceLen, s.pieceLen? i = some pieceLen ∧ start + length ≤ pieceLen.toNat
  segments : s.segments? ((s.pieceStart i).toNat + start) length = some gs

/-- The lengths of the files of a store. -/
def lengths (s : Store) : List Nat := s.slots.map fun slot => slot.length.toNat

theorem lengths_of_layout (h : s'.layout = s.layout) : s'.lengths = s.lengths := by
  have hslots := congrArg (fun s : Store => s.slots.map fun slot => slot.length.toNat) h
  simp only [layout, List.map_map] at hslots
  exact hslots

theorem segments?_of_layout (h : s'.layout = s.layout) : s'.segments? = s.segments? := by
  funext start length
  show Torrent.segments s'.lengths start length = Torrent.segments s.lengths start length
  rw [lengths_of_layout h]

theorem pieceStart_of_layout (h : s'.layout = s.layout) : s'.pieceStart = s.pieceStart := by
  have hlength := congrArg Store.pieceLength h
  simp only [layout] at hlength
  funext i
  simp only [pieceStart]
  rw [hlength]

theorem pieceLen?_of_layout (h : s'.layout = s.layout) : s'.pieceLen? = s.pieceLen? := by
  have hlength := congrArg Store.pieceLength h
  have htotal := congrArg Store.totalLength h
  have hcount := congrArg Store.pieceCount h
  simp only [layout] at hlength htotal hcount
  funext i
  unfold pieceLen? pieceStart
  rw [hlength, htotal, hcount]

theorem Laid.of_layout (h : s.Laid i data gs) (hlayout : s'.layout = s.layout) :
    s'.Laid i data gs := by
  obtain ⟨⟨length, hlength, hdata⟩, hsegments⟩ := h
  refine ⟨⟨length, (pieceLen?_of_layout hlayout).symm ▸ hlength, hdata⟩, ?_⟩
  rw [segments?_of_layout hlayout, pieceStart_of_layout hlayout]
  exact hsegments

theorem Stretch.of_layout {start length : Nat} (h : s.Stretch i start length gs)
    (hlayout : s'.layout = s.layout) : s'.Stretch i start length gs := by
  obtain ⟨⟨pieceLen, hpiece, hend⟩, hsegments⟩ := h
  refine ⟨⟨pieceLen, (pieceLen?_of_layout hlayout).symm ▸ hpiece, hend⟩, ?_⟩
  rw [segments?_of_layout hlayout, pieceStart_of_layout hlayout]
  exact hsegments

/-- A write that is not refused at once sets out to lay the piece. -/
theorem laid_of_write {left : List Chunk} (h : s.write i data = .placing j left) :
    j = i ∧ ∃ gs, s.Laid i data gs ∧ left = deal gs data := by
  simp only [write] at h
  split at h
  next => cases h
  next length hlength =>
    split at h
    next => cases h
    next hdata =>
      have hdata : data.length = length.toNat := by simpa using hdata
      split at h
      next => cases h
      next gs hsegments =>
        cases h
        exact ⟨rfl, gs, ⟨⟨length, hlength, hdata⟩, hdata ▸ hsegments⟩, rfl⟩

namespace Laid

theorem walk (h : s.Laid i data gs) :
    Walk 0 s.lengths (s.pieceStart i).toNat data.length gs :=
  .of_segmentsFrom h.segments

/-- The segments take up all bytes of the piece. -/
theorem sum_eq (h : s.Laid i data gs) : (gs.map Segment.length).sum = data.length :=
  h.walk.spec.1

theorem length_of_mem (h : s.Laid i data gs) {c : Chunk} (hc : c ∈ deal gs data) :
    c.2.length = c.1.length :=
  length_of_mem_deal (Nat.le_of_eq h.sum_eq) hc

/-- A part of a chunk is not longer than its segment. -/
theorem length_take_le (h : s.Laid i data gs) {c : Chunk} (hc : c ∈ deal gs data) (n : Nat) :
    (c.2.take n).length ≤ c.1.length := by
  rw [List.length_take, h.length_of_mem hc]
  exact Nat.min_le_right _ _

/-- A piece that is laid somewhere is one of the pieces. -/
theorem lt (h : s.Laid i data gs) (hfits : s.Fits d) : i.toNat < d.pieceCount := by
  obtain ⟨length, hlength, -⟩ := h.length
  exact hfits.lt_of_pieceLen? hlength

theorem length_eq (h : s.Laid i data gs) (hfits : s.Fits d) (hd : d.Sound) :
    data.length = d.lengthAt i.toNat := by
  obtain ⟨length, hlength, hdata⟩ := h.length
  obtain ⟨length', hlength', hat⟩ := hfits.pieceLen?_eq hd (h.lt hfits)
  rw [hlength] at hlength'
  cases hlength'
  rw [hdata, hat]

/-- Where a piece is laid depends on its bytes no further than by their number, which is given. -/
theorem unique (h : s.Laid i data gs) (h' : s.Laid i data' gs') : gs = gs' := by
  obtain ⟨length, hlength, hdata⟩ := h.length
  obtain ⟨length', hlength', hdata'⟩ := h'.length
  rw [hlength] at hlength'
  cases hlength'
  have hsame := h.segments.symm.trans (hdata.trans hdata'.symm ▸ h'.segments)
  cases hsame
  rfl

/-- A whole piece is a stretch of itself. -/
theorem stretch (h : s.Laid i data gs) : s.Stretch i 0 data.length gs := by
  obtain ⟨pieceLen, hpiece, hdata⟩ := h.length
  exact ⟨⟨pieceLen, hpiece, by omega⟩, h.segments⟩

/-- Segments of a piece do not meet those of a stretch of another piece. -/
theorem apart_stretch (h : s.Laid i data gs) {start length : Nat}
    (h' : s.Stretch j start length gs') (hfits : s.Fits d) (hd : d.Sound) (hne : i ≠ j)
    {g g' : Segment} (hg : g ∈ gs) (hg' : g' ∈ gs') : g.Apart g' := by
  obtain ⟨⟨pieceLen, hpiece, hend⟩, hsegments⟩ := h'
  obtain ⟨length', hlength', hat⟩ := hfits.pieceLen?_eq hd (hfits.lt_of_pieceLen? hpiece)
  rw [hpiece] at hlength'
  cases hlength'
  refine apart_of_ranges h.segments hsegments ?_ hg hg'
  rw [hfits.toNat_pieceStart hd i, hfits.toNat_pieceStart hd j, h.length_eq hfits hd]
  have hne' : i.toNat ≠ j.toNat := fun heq => hne (UInt32.toNat_inj.1 heq)
  rcases Nat.lt_or_gt_of_ne hne' with hlt | hlt
  · have hbefore := d.end_le_start hlt
    omega
  · have hbehind := d.end_le_start hlt
    omega

/-- Segments of different pieces do not meet. -/
theorem apart (h : s.Laid i data gs) (h' : s.Laid j data' gs') (hfits : s.Fits d) (hd : d.Sound)
    (hne : i ≠ j) {g g' : Segment} (hg : g ∈ gs) (hg' : g' ∈ gs') : g.Apart g' :=
  h.apart_stretch h'.stretch hfits hd hne hg hg'

/-- Segments of one piece do not meet. -/
theorem pairwise (h : s.Laid i data gs) : gs.Pairwise Segment.Apart :=
  apart_of_lt h.walk.spec.2.1

theorem segment_eq_or_apart (h : s.Laid i data gs) {g g' : Segment} (hg : g ∈ gs) (hg' : g' ∈ gs) :
    g = g' ∨ g.Apart g' := by
  have hsymm : Std.Symm Segment.Apart := ⟨fun _ _ hapart heq => (hapart heq.symm).symm⟩
  by_cases heq : g = g'
  · exact .inl heq
  · exact .inr (h.pairwise.forall hg hg' heq)

theorem eq_or_apart (h : s.Laid i data gs) {c c' : Chunk} (hc : c ∈ deal gs data)
    (hc' : c' ∈ deal gs data) : c = c' ∨ c.1.Apart c'.1 := by
  have hsymm : Std.Symm fun c c' : Chunk => c.1.Apart c'.1 :=
    ⟨fun _ _ hapart heq => (hapart heq.symm).symm⟩
  have hpairwise := h.pairwise
  rw [← fst_deal gs data, List.pairwise_map] at hpairwise
  by_cases heq : c = c'
  · exact .inl heq
  · exact .inr (hpairwise.forall hc hc' heq)

end Laid

/-! ## Pieces that can be written -/

/-- The files of a store are as long as the description says. -/
theorem lengths_open {tree tree' : FileTree} {root name : List Char}
    (h : open_ tree root d name = (.ok s, tree')) :
    s.lengths = d.files.map fun file => file.length.toNat := by
  obtain ⟨-, -, -, -, rfl⟩ := open_eq h
  simp only [lengths, List.map_map]
  rfl

/-- The range of a piece lies in the files of its store. -/
theorem Fits.exists_segments (h : s.Fits d) (hd : d.Sound)
    (hlengths : s.lengths = d.files.map fun file => file.length.toNat)
    (hi : i.toNat < d.pieceCount) :
    ∃ gs, s.segments? (s.pieceStart i).toNat (d.lengthAt i.toNat) = some gs := by
  have hinside : (s.pieceStart i).toNat + d.lengthAt i.toNat ≤ s.lengths.sum := by
    have hstart := hd.start_lt hi
    have htotal := hd.totalLength_le_sum
    rw [h.toNat_pieceStart hd i, hlengths]
    simp only [Descriptor.lengthAt]
    omega
  obtain ⟨gs, hwalk⟩ := (Walk.exists_iff 0 _ _ _).2 (.inr hinside)
  exact ⟨gs, hwalk.segmentsFrom_eq⟩

/-- A piece of the right length is written, segment by segment. -/
theorem Fits.write_eq (h : s.Fits d) (hd : d.Sound)
    (hlengths : s.lengths = d.files.map fun file => file.length.toNat)
    (hi : i.toNat < d.pieceCount) (hdata : data.length = d.lengthAt i.toNat) :
    ∃ left, s.write i data = .placing i left := by
  obtain ⟨length, hlength, hat⟩ := h.pieceLen?_eq hd hi
  obtain ⟨gs, hsegments⟩ := h.exists_segments hd hlengths hi
  rw [← hat] at hsegments
  simp only [write]
  rw [hlength]
  dsimp only
  rw [if_neg (fun hne => hne (hdata.trans hat.symm)), hsegments]
  exact ⟨_, rfl⟩

end Store

end Torrent
