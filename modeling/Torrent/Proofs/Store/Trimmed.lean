import Torrent.Proofs.Store.Reading

/-!
# Files of the right length

A store that began without its files opens a file only for a segment with bytes,
and writes only inside its files (`Store.Within`).  So nothing ever stands at the
place of a file of length zero, and no file grows longer than it should be
(`Store.Trimmed`), whatever is written or read.

The lengths of files may add up to more than the length of the torrent, when their
sum leaves the 64-bit words.  Then what lies behind the torrent is not written.
-/

namespace Torrent

namespace Store

variable {s s' : Store} {t t' : FileTree} {file : Nat} {id : FileId} {g : Segment} {d : Descriptor}
  {i : PieceIndex} {data bytes : Bytes} {gs : List Segment}

/-- A segment has bytes and lies inside its file and inside the torrent. -/
structure Within (s : Store) (g : Segment) : Prop where
  length_pos : 0 < g.length
  file : ∃ size, s.lengths[g.file]? = some size ∧ g.start + g.length ≤ size
  torrent : offset s.lengths g.file + g.start + g.length ≤ s.totalLength.toNat

theorem Within.of_layout (h : s.Within g) (hlayout : s'.layout = s.layout) : s'.Within g := by
  obtain ⟨hpos, hfile, htorrent⟩ := h
  rw [← lengths_of_layout hlayout] at hfile htorrent
  rw [← totalLength_of_layout hlayout] at htorrent
  exact ⟨hpos, hfile, htorrent⟩

/-- The segments of a range inside the torrent. -/
theorem within_of_segments {start length : Nat} (h : s.segments? start length = some gs)
    (hend : start + length ≤ s.totalLength.toNat) (hg : g ∈ gs) : s.Within g := by
  have hlength := Bytes.length_zeros length
  rw [← fst_deal gs (Bytes.zeros length)] at hg
  obtain ⟨c, hc, rfl⟩ := List.mem_map.1 hg
  have hwalk : Walk 0 s.lengths start length gs := .of_segmentsFrom h
  obtain ⟨p, size, -, hp, hpos, hat, hsize, hinside⟩ := hwalk.chunk hlength c hc
  simp only [Nat.sub_zero] at hat hsize
  exact ⟨hpos, ⟨size, hsize, hinside⟩, by omega⟩

/-- A piece ends inside the torrent. -/
theorem Fits.pieceStart_add_le (hfits : s.Fits d) (hd : d.Sound) {length : UInt64}
    (h : s.pieceLen? i = some length) :
    (s.pieceStart i).toNat + length.toNat ≤ s.totalLength.toNat := by
  have hi : i.toNat < d.pieceCount := hfits.lt_of_pieceLen? h
  obtain ⟨length', hlength', hat⟩ := hfits.pieceLen?_eq hd hi
  rw [h] at hlength'
  cases hlength'
  have hstart := hd.start_lt hi
  rw [hfits.toNat_pieceStart hd i, hat, hfits.totalLength]
  simp only [Descriptor.lengthAt]
  omega

theorem Laid.within (h : s.Laid i data gs) (hfits : s.Fits d) (hd : d.Sound) (hg : g ∈ gs) :
    s.Within g := by
  obtain ⟨length, hlength, hdata⟩ := h.length
  refine within_of_segments h.segments ?_ hg
  rw [hdata]
  exact hfits.pieceStart_add_le hd hlength

/-! ## What stands at the places of files -/

theorem StandsAt.of_keeps (h : s'.StandsAt t' file id) (hlayout : s'.layout = s.layout)
    (hkeeps : t.Keeps t') (hentries : ∀ names, t'.entryAt names = some (.file id) →
      t.entryAt names = some (.file id)) : s.StandsAt t file id := by
  obtain ⟨path, hpath, hentry⟩ := h
  rw [hkeeps.place_eq] at hentry
  exact ⟨path, (path?_of_layout hlayout file).symm.trans hpath, hentries _ hentry⟩

/-- No file is too long, and nothing stands at the place of a file that has no bytes in the
torrent. -/
def Trimmed (s : Store) (t : FileTree) : Prop :=
  ∀ file size id, s.lengths[file]? = some size → s.StandsAt t file id →
    0 < size ∧ offset s.lengths file < s.totalLength.toNat ∧ (t.content id).length ≤ size ∧
      offset s.lengths file + (t.content id).length ≤ s.totalLength.toNat

theorem Trimmed.of_layout (h : s.Trimmed t) (hlayout : s'.layout = s.layout) : s'.Trimmed t := by
  intro file size id hsize hstands
  rw [lengths_of_layout hlayout] at hsize ⊢
  rw [totalLength_of_layout hlayout]
  exact h file size id hsize (hstands.of_keeps hlayout (.refl t) fun _ hentry => hentry)

/-- What opening a slot puts at a place is a new file at the place of that slot. -/
theorem openSlot_files {result : Except IoError FileId}
    (h : s.openSlot t file = (result, s', t')) (names : List Name)
    (hentry : t'.entryAt names = some (.file id)) :
    t.entryAt names = some (.file id) ∨
      ∃ path, s.path? file = some path ∧ names = t.place path ∧ t'.content id = [] := by
  simp only [openSlot] at h
  split at h
  next =>
    cases h
    exact .inl hentry
  next slot hslot =>
    split at h
    next =>
      cases h
      exact .inl hentry
    next =>
      split at h
      next hparent =>
        cases h
        exact .inl ((makeParent_spec hparent).1.files _ _ hentry)
      next hparent =>
        have hfurnished := (makeParent_spec hparent).1
        split at h
        next =>
          cases h
          exact .inl (hfurnished.files _ _ hentry)
        next hopen =>
          cases h
          rcases FileTree.openFile_files hopen names id hentry with hold | ⟨hplace, hnil⟩
          · exact .inl (hfurnished.files _ _ hold)
          · rw [hfurnished.toKeeps.place_eq] at hplace
            exact .inr ⟨slot.path, by rw [path?, hslot]; rfl, hplace, hnil⟩

/-- Opening the file of a segment makes at most an empty file, which has room. -/
theorem Trimmed.openSlot {result : Except IoError FileId} (h : s.Trimmed t) (hs : s.Housed t)
    (hg : s.Within g) (hopen : s.openSlot t g.file = (result, s', t')) : s'.Trimmed t' := by
  have hextends := (openSlot_spec hs.handles hopen).1
  refine Trimmed.of_layout (s := s) ?_ (openSlot_store hopen).1
  rintro file size id hsize ⟨path, hpath, hentry⟩
  rcases openSlot_files hopen _ hentry with hold | ⟨path', hpath', hplace, hnil⟩
  · rw [hextends.content]
    rw [hextends.toKeeps.place_eq] at hold
    exact h file size id hsize ⟨path, hpath, hold⟩
  · rw [hextends.toKeeps.place_eq] at hplace
    obtain rfl := hs.eq_of_place hpath hpath' hplace
    obtain ⟨hpos, ⟨size', hsize', hinside⟩, htorrent⟩ := hg
    rw [hsize] at hsize'
    cases hsize'
    rw [hnil, List.length_nil]
    omega

/-- A file that is written inside a segment does not get too long. -/
theorem Trimmed.write (h : s.Trimmed t) (hs : s.Housed t) (hg : s.Within g)
    (hfile : s.FileAt t g.file id) (hbytes : bytes.length ≤ g.length) :
    s.Trimmed (t.writeAt id g.start bytes) := by
  intro file size other hsize hstands
  have hstands : s.StandsAt t file other :=
    hstands.of_keeps rfl (t.keeps_setContent _ _) fun _ hentry => hentry
  obtain ⟨hpos, hoffset, hlength, hend⟩ := h file size other hsize hstands
  simp only [FileTree.writeAt]
  by_cases hid : id = other
  · subst hid
    obtain rfl := hs.file_eq hfile.standsAt hstands
    obtain ⟨-, ⟨size', hsize', hinside⟩, htorrent⟩ := hg
    rw [hsize] at hsize'
    cases hsize'
    rw [FileTree.content_setContent_self hfile.standsAt.lt_size, Bytes.length_writeAt]
    exact ⟨hpos, hoffset, by omega, by omega⟩
  · rw [FileTree.content_setContent_of_ne hid]
    exact ⟨hpos, hoffset, hlength, hend⟩

/-- The resume file may be as long as it likes. -/
theorem Trimmed.resume (h : s.Trimmed t) (hs : s.Housed t) (bytes : Bytes) :
    s.Trimmed (t.setContent s.resume bytes) := by
  intro file size id hsize hstands
  have hstands : s.StandsAt t file id :=
    hstands.of_keeps rfl (t.keeps_setContent _ _) fun _ hentry => hentry
  rw [FileTree.content_setContent_of_ne (hs.ne_resume hstands)]
  exact h file size id hsize hstands

/-- A file of a trimmed store that shows the bytes of the torrent has the bytes of its place. -/
theorem Trimmed.readFile (h : s.Trimmed t) {content : Bytes}
    (hlength : content.length = s.totalLength.toNat)
    (hshows : ∀ pos b, content[pos]? = some b → s.Shows t pos b) {path : List Char} {size : Nat}
    (hpath : s.path? file = some path) (hsize : s.lengths[file]? = some size) (hpos : 0 < size)
    (hoffset : offset s.lengths file < s.totalLength.toNat) :
    t.readFile path = .ok ((content.drop (offset s.lengths file)).take size) := by
  -- the byte at a place of the file
  have hbyte : ∀ start < size, offset s.lengths file + start < content.length → ∃ id,
      s.FileAt t file id ∧
        (t.content id)[start]? = content[offset s.lengths file + start]? := by
    intro start hstart hinside
    have hget := List.getElem?_eq_getElem hinside
    obtain ⟨file', start', size', id, hsize', hstart', hat, hfile, hcontent⟩ := hshows _ _ hget
    obtain ⟨rfl, rfl⟩ := place_unique hsize' hsize hstart' hstart hat
    exact ⟨id, hfile, hcontent.trans hget.symm⟩
  obtain ⟨id, hfile, -⟩ := hbyte 0 hpos (by omega)
  obtain ⟨-, -, hle, hend⟩ := h file size id hsize hfile.standsAt
  have hopened : t.Opened path id := by
    obtain ⟨path', hpath', hopened⟩ := hfile
    rw [hpath] at hpath'
    cases hpath'
    exact hopened
  rw [hopened.readFile]
  congr 1
  refine List.ext_getElem? fun k => ?_
  rw [List.getElem?_take, List.getElem?_drop]
  split
  next hk =>
    by_cases hinside : offset s.lengths file + k < content.length
    · obtain ⟨id', hfile', hcontent⟩ := hbyte k hk hinside
      obtain rfl := hfile'.unique hfile
      exact hcontent
    · rw [List.getElem?_eq_none (by omega), List.getElem?_eq_none (by omega)]
  next hk => exact List.getElem?_eq_none (by omega)

/-- A file that has no bytes in the torrent is not there in a trimmed store. -/
theorem Trimmed.readFile_ne (h : s.Trimmed t) {path : List Char} {size : Nat}
    (hpath : s.path? file = some path) (hsize : s.lengths[file]? = some size)
    (hno : size = 0 ∨ s.totalLength.toNat ≤ offset s.lengths file) (bytes : Bytes) :
    t.readFile path ≠ .ok bytes := by
  intro hread
  obtain ⟨id, hentry⟩ := FileTree.entryAt_of_readFile hread
  obtain ⟨hpos, hoffset, -⟩ := h file size id hsize ⟨path, hpath, hentry⟩
  omega

end Store

/-! ## Calls -/

variable {s s' : Store} {t t' : FileTree} {d : Descriptor} {i : PieceIndex} {data : Bytes}

/-- Writing leaves files trimmed. -/
theorem Writing.Effect.trimmed {fault : Option Fault} {w w' : Writing}
    (h : Effect fault s t w w' s' t') (hs : s.Housed t) (hfits : s.Fits d) (hd : d.Sound)
    (hw : w.Carries s t i data) (ht : s.Trimmed t) : s'.Trimmed t' := by
  cases h.touch hw with
  | stays hlayout => exact ht.of_layout hlayout
  | opens hlaid hg hopen => exact ht.openSlot hs (hlaid.within hfits hd hg) hopen
  | writes n hlaid hmem hfile hmarked =>
      have hwithin := hlaid.within hfits hd (mem_of_mem_deal hmem)
      exact ht.write hs hwithin hfile (hlaid.length_take_le hmem n)
  | resumes bytes hlayout => exact (ht.resume hs bytes).of_layout hlayout

namespace Reading

/-- What is left to read lies inside the files and inside the torrent. -/
def Within (s : Store) : Reading → Prop
  | .taking left _ | .opened _ left _ => ∀ g ∈ left, s.Within g
  | .finished _ => True

theorem within_read (hfits : s.Fits d) (hd : d.Sound) (i : PieceIndex) (start length : Nat) :
    (s.read i start length).Within s := by
  rcases s.read_cases i start length with hread |
    ⟨pieceLen, gs, -, hlength, -, hstretch, hsegments, hread⟩
  · rw [hread]
    trivial
  · rw [hread]
    have hend := hfits.pieceStart_add_le hd hlength
    exact fun g hg => Store.within_of_segments hsegments (by omega) hg

theorem Within.of_layout {r : Reading} (h : r.Within s) (hlayout : s'.layout = s.layout) :
    r.Within s' := by
  cases r with
  | taking left done => exact fun g hg => (h g hg).of_layout hlayout
  | opened id left done => exact fun g hg => (h g hg).of_layout hlayout
  | finished result => trivial

/-- Reading leaves files trimmed. -/
theorem Within.step {r r' : Reading} (h : r.Within s) (hs : s.Housed t) (ht : s.Trimmed t)
    (hstep : r.step s t = (r', s', t')) : r'.Within s' ∧ s'.Trimmed t' := by
  simp only [Reading.step] at hstep
  split at hstep
  next =>
    cases hstep
    exact ⟨trivial, ht⟩
  next g rest done =>
    have hg := h g (List.mem_cons_self ..)
    split at hstep
    next hopen =>
      cases hstep
      exact ⟨trivial, ht.openSlot hs hg hopen⟩
    next hopen =>
      cases hstep
      exact ⟨fun g' hg' => (h g' hg').of_layout (Store.openSlot_store hopen).1,
        ht.openSlot hs hg hopen⟩
  next =>
    cases hstep
    exact ⟨trivial, ht⟩
  next g rest done =>
    split at hstep
    next =>
      cases hstep
      exact ⟨trivial, ht⟩
    next =>
      cases hstep
      exact ⟨fun g' hg' => h g' (List.mem_cons_of_mem _ hg'), ht⟩
  next =>
    cases hstep
    exact ⟨trivial, ht⟩

end Reading

end Torrent
