import Torrent.Store.Read
import Torrent.Store.Write

/-!
# How a store changes

Whatever a store is used for, its layout stays (`Store.layout`) and no piece that
is there is ever reported as missing again.  Both together are `Store.Grows`.
Only one effect makes a piece known as there, the marking of its bit
(`Writing.Effect.hasPiece`).

`Writing.Effect` lists what a step of writing can do, and every other fact on
writing is read off that list.  `Writing.Tracks` ties writing to the piece that
is written.
-/

namespace Torrent

namespace Store

/-- The store without all that its use changes. -/
def layout (s : Store) : Store :=
  { s with
    slots := s.slots.map fun slot => { slot with handle := none }
    rewriting := false
    completed := ⟨[]⟩ }

/-- A later state of the same store. -/
structure Grows (s s' : Store) : Prop where
  layout : s'.layout = s.layout
  size : s'.completed.bytes.length = s.completed.bytes.length
  bits : ∀ i, s.hasPiece i = true → s'.hasPiece i = true

variable {s s' s'' : Store} {t t' : FileTree}

theorem totalLength_of_layout (h : s'.layout = s.layout) : s'.totalLength = s.totalLength :=
  show s'.layout.totalLength = s.layout.totalLength from congrArg Store.totalLength h

theorem resumePath_of_layout (h : s'.layout = s.layout) : s'.resumePath = s.resumePath :=
  show s'.layout.resumePath = s.layout.resumePath from congrArg Store.resumePath h

theorem resume_of_layout (h : s'.layout = s.layout) : s'.resume = s.resume :=
  show s'.layout.resume = s.layout.resume from congrArg Store.resume h

theorem Grows.refl (s : Store) : s.Grows s := ⟨rfl, rfl, fun _ h => h⟩

theorem Grows.trans (h : s.Grows s') (h' : s'.Grows s'') : s.Grows s'' :=
  ⟨h'.layout.trans h.layout, h'.size.trans h.size, fun i hi => h'.bits i (h.bits i hi)⟩

/-- A store whose bitmap stays grows if its layout stays. -/
theorem grows_of_completed_eq (hlayout : s'.layout = s.layout)
    (hcompleted : s'.completed = s.completed) : s.Grows s' := by
  refine ⟨hlayout, by rw [hcompleted], ?_⟩
  intro i hi
  simp only [hasPiece] at hi ⊢
  rw [hcompleted]
  exact hi

/-! ## Opening -/

theorem length_bitmapOf (resume : Bytes) (n : Nat) :
    (bitmapOf resume n).bytes.length = byteLength n := by
  simp only [bitmapOf]
  split
  next h =>
    rw [List.length_take]
    exact Nat.min_eq_left h
  next => exact Bytes.length_zeros _

/-- A store that opens has made its directory and opened its resume file. -/
theorem open_eq {root name : List Char} {d : Descriptor} (h : open_ t root d name = (.ok s, t')) :
    ∃ made resume, t.makeDirectories root = (.ok (), made) ∧
      made.openFile (Path.join root name) = .ok (resume, t') ∧
      s = { root := root
            resumePath := Path.join root name
            pieceLength := d.pieceLength
            totalLength := d.totalLength
            pieceCount := d.pieceCount
            slots := d.files.map fun file => ⟨Path.join root file.path.toList, file.length, none⟩
            resume := resume
            rewriting := false
            completed := bitmapOf (t'.content resume) d.pieceCount } := by
  unfold open_ at h
  split at h
  next => cases h
  next made hmade =>
    dsimp only at h
    split at h
    next => cases h
    next resume t'' hopen =>
      cases h
      exact ⟨made, resume, hmade, hopen, rfl⟩

/-- The bitmap of a store has a place for every piece. -/
theorem size_open {root name : List Char} {d : Descriptor}
    (h : open_ t root d name = (.ok s, t')) :
    s.completed.bytes.length = byteLength d.pieceCount := by
  obtain ⟨-, -, -, -, rfl⟩ := open_eq h
  exact length_bitmapOf _ _

/-! ## Using files -/

@[simp] theorem layout_close (s : Store) : s.close.layout = s.layout := by
  simp only [layout, close, List.map_map]
  rfl

theorem close_grows (s : Store) : s.Grows s.close := grows_of_completed_eq s.layout_close rfl

/-- A file opened in a slot is no part of the layout. -/
theorem layout_setHandle {file : Nat} {slot : Slot} (h : s.slots[file]? = some slot)
    (handle : Option FileId) :
    layout { s with slots := s.slots.set file { slot with handle := handle } } = s.layout := by
  obtain ⟨hlt, hslot⟩ := List.getElem?_eq_some_iff.1 h
  simp only [layout, List.map_set]
  congr 1
  have hmap : (s.slots.map fun slot => { slot with handle := none })[file]? =
      some { slot with handle := none } := by
    rw [List.getElem?_map, h]
    rfl
  obtain ⟨hlt', hslot'⟩ := List.getElem?_eq_some_iff.1 hmap
  rw [← hslot']
  exact List.set_getElem_self hlt'

/-- All that opening a slot can do to the store. -/
theorem openSlot_store {file : Nat} {result : Except IoError FileId}
    (h : s.openSlot t file = (result, s', t')) :
    s'.layout = s.layout ∧ s'.completed = s.completed ∧ s'.rewriting = s.rewriting := by
  simp only [openSlot] at h
  split at h
  next =>
    cases h
    exact ⟨rfl, rfl, rfl⟩
  next slot hslot =>
    split at h
    next =>
      cases h
      exact ⟨rfl, rfl, rfl⟩
    next =>
      split at h
      next =>
        cases h
        exact ⟨rfl, rfl, rfl⟩
      next =>
        split at h
        next =>
          cases h
          exact ⟨rfl, rfl, rfl⟩
        next id t'' hopen =>
          cases h
          exact ⟨layout_setHandle hslot _, rfl, rfl⟩

theorem openSlot_grows {file : Nat} {result : Except IoError FileId}
    (h : s.openSlot t file = (result, s', t')) : s.Grows s' := by
  obtain ⟨hlayout, hcompleted, -⟩ := openSlot_store h
  exact grows_of_completed_eq hlayout hcompleted

/-- A bit that is set makes the store grow. -/
theorem mark_grows (s : Store) (i : PieceIndex) (rewriting : Bool) :
    s.Grows { s with completed := s.completed.insert i, rewriting := rewriting } := by
  refine ⟨rfl, Bitfield.length_insert _ _, ?_⟩
  intro j hj
  simp only [hasPiece, Bitfield.has] at hj ⊢
  rw [Bitfield.bit_insert, hj, Bool.true_or]

/-- The bit of a piece within the bitmap is set by marking it. -/
theorem hasPiece_mark {i : PieceIndex} (hi : i.toNat / 8 < s.completed.bytes.length)
    (rewriting : Bool) :
    hasPiece { s with completed := s.completed.insert i, rewriting := rewriting } i = true := by
  simp only [hasPiece, Bitfield.has]
  rw [Bitfield.bit_insert]
  simp [hi]

/-- Marking a piece reports no other one. -/
theorem eq_of_hasPiece_mark {i j : PieceIndex} {rewriting : Bool}
    (h : hasPiece { s with completed := s.completed.insert i, rewriting := rewriting } j = true) :
    s.hasPiece j = true ∨ j = i := by
  simp only [hasPiece, Bitfield.has] at h ⊢
  rw [Bitfield.bit_insert, Bool.or_eq_true, decide_eq_true_eq] at h
  rcases h with hj | ⟨hj, -⟩
  · exact .inl hj
  · exact .inr (UInt32.toNat_inj.1 hj)

end Store

/-- A step of reading leaves everything alone, or opens a file. -/
theorem Reading.step_opens {r r' : Reading} {s s' : Store} {t t' : FileTree}
    (h : r.step s t = (r', s', t')) :
    s' = s ∧ t' = t ∨ ∃ file result, s.openSlot t file = (result, s', t') := by
  simp only [Reading.step] at h
  split at h
  next =>
    cases h
    exact .inl ⟨rfl, rfl⟩
  next =>
    split at h
    next hopen =>
      cases h
      exact .inr ⟨_, _, hopen⟩
    next hopen =>
      cases h
      exact .inr ⟨_, _, hopen⟩
  next =>
    cases h
    exact .inl ⟨rfl, rfl⟩
  next =>
    split at h
    next =>
      cases h
      exact .inl ⟨rfl, rfl⟩
    next =>
      cases h
      exact .inl ⟨rfl, rfl⟩
  next =>
    cases h
    exact .inl ⟨rfl, rfl⟩

theorem Reading.step_store {r r' : Reading} {s s' : Store} {t t' : FileTree}
    (h : r.step s t = (r', s', t')) :
    s'.layout = s.layout ∧ s'.completed = s.completed ∧ s'.rewriting = s.rewriting := by
  rcases step_opens h with ⟨rfl, rfl⟩ | ⟨file, result, hopen⟩
  · exact ⟨rfl, rfl, rfl⟩
  · exact Store.openSlot_store hopen

theorem Reading.step_grows {r r' : Reading} {s s' : Store} {t t' : FileTree}
    (h : r.step s t = (r', s', t')) : s.Grows s' := by
  obtain ⟨hlayout, hcompleted, -⟩ := step_store h
  exact Store.grows_of_completed_eq hlayout hcompleted

/-! ## Effects of writing -/

/-- As much of a block as is written under a fault. -/
def Fault.passed : Option Fault → Bytes → Bytes
  | none, block => block
  | some fault, block => block.take fault.done

theorem Fault.passed_eq_take (fault : Option Fault) (block : Bytes) :
    ∃ n, passed fault block = block.take n := by
  cases fault with
  | none => exact ⟨block.length, List.take_length.symm⟩
  | some fault => exact ⟨fault.done, rfl⟩

namespace Writing

/-- What a step of writing can do to a store and its files. -/
inductive Effect (fault : Option Fault) (s : Store) (t : FileTree) :
    Writing → Writing → Store → FileTree → Prop
  | placed (i : PieceIndex) : Effect fault s t (.placing i []) (.marking i) s t
  | opening {i : PieceIndex} {g : Segment} {bytes : Bytes} {rest : List Chunk} {id : FileId}
    {s' : Store} {t' : FileTree} (h : s.openSlot t g.file = (.ok id, s', t')) :
    Effect fault s t (.placing i ((g, bytes) :: rest)) (.opened i id ((g, bytes) :: rest)) s' t'
  | unopened {i : PieceIndex} {g : Segment} {bytes : Bytes} {rest : List Chunk} {e : IoError}
    {s' : Store} {t' : FileTree} (h : s.openSlot t g.file = (.error e, s', t')) :
    Effect fault s t (.placing i ((g, bytes) :: rest)) (failed e) s' t'
  | barred (i : PieceIndex) (left : List Chunk) (e : IoError) :
    Effect fault s t (.placing i left) (failed e) s t
  /-- Nothing was left for the open file. -/
  | idle (i : PieceIndex) (id : FileId) : Effect fault s t (.opened i id []) (.marking i) s t
  | written (i : PieceIndex) (id : FileId) (g : Segment) (bytes : Bytes) (rest : List Chunk) :
    Effect fault s t (.opened i id ((g, bytes) :: rest)) (.placing i rest) s
      (t.writeAt id g.start bytes)
  | torn (i : PieceIndex) (id : FileId) (g : Segment) (bytes : Bytes) (rest : List Chunk) (n : Nat)
    (e : IoError) :
    Effect fault s t (.opened i id ((g, bytes) :: rest)) (failed e) s
      (t.writeAt id g.start (bytes.take n))
  | waited (i : PieceIndex) (hbusy : s.rewriting = true) :
    Effect fault s t (.marking i) (.marking i) s t
  | marked (i : PieceIndex) (hfree : s.rewriting = false) :
    Effect fault s t (.marking i) (.saving (s.completed.insert i).bytes)
      { s with completed := s.completed.insert i, rewriting := true } t
  /-- The bitmap, or a part of it, is in the resume file. -/
  | saved (bitmap : Bytes) :
    Effect fault s t (.saving bitmap) (.cutting bitmap.length (fault.map (·.error))) s
      (t.writeAt s.resume 0 (Fault.passed fault bitmap))
  | closed (n : Nat) :
    Effect fault s t (.cutting n none) (.finished (.ok ())) { s with rewriting := false }
      (t.setLength s.resume n)
  | spoiled {n : Nat} {failure : Option IoError} {e : IoError} {t' : FileTree}
    (hfailure : fault.isSome = true ∨ failure.isSome = true)
    (ht : t' = t ∨ t' = t.setLength s.resume n) :
    Effect fault s t (.cutting n failure) (failed e) { s with rewriting := false } t'
  | ended (result : Except StorageError Unit) :
    Effect fault s t (.finished result) (.finished result) s t

variable {w w' : Writing} {s s' : Store} {t t' : FileTree} {fault : Option Fault}

/-- A step of writing does nothing else. -/
theorem step_effect (h : w.step fault s t = (w', s', t')) : Effect fault s t w w' s' t' := by
  unfold step at h
  split at h
  next =>
    cases h
    exact .placed _
  next =>
    split at h
    next =>
      cases h
      exact .barred _ _ _
    next =>
      split at h
      next hopen =>
        cases h
        exact .unopened hopen
      next hopen =>
        cases h
        exact .opening hopen
  next =>
    cases h
    exact .idle _ _
  next =>
    split at h
    next =>
      cases h
      exact .torn _ _ _ _ _ _ _
    next =>
      cases h
      exact .written _ _ _ _ _
  next =>
    split at h
    next hbusy =>
      cases h
      exact .waited _ hbusy
    next hfree =>
      cases h
      exact .marked _ (by simpa using hfree)
  next =>
    split at h
    next =>
      cases h
      exact .saved _
    next =>
      cases h
      exact .saved _
  next =>
    dsimp only at h
    split at h
    next =>
      cases h
      exact .spoiled (.inl rfl) (.inl rfl)
    next =>
      cases h
      exact .spoiled (.inr rfl) (.inr rfl)
    next =>
      cases h
      exact .closed _
  next =>
    cases h
    exact .ended _

theorem Effect.grows (h : Effect fault s t w w' s' t') : s.Grows s' := by
  cases h with
  | opening hopen => exact Store.openSlot_grows hopen
  | unopened hopen => exact Store.openSlot_grows hopen
  | marked i => exact s.mark_grows i true
  | closed => exact Store.grows_of_completed_eq rfl rfl
  | spoiled => exact Store.grows_of_completed_eq rfl rfl
  | _ => exact .refl s

/-- A piece that a step of writing makes known is the one being marked. -/
theorem Effect.hasPiece {i : PieceIndex} (h : Effect fault s t w w' s' t')
    (hi : s'.hasPiece i = true) : s.hasPiece i = true ∨ w = .marking i := by
  cases h with
  | opening hopen =>
      simp only [Store.hasPiece] at hi ⊢
      rw [← (Store.openSlot_store hopen).2.1]
      exact .inl hi
  | unopened hopen =>
      simp only [Store.hasPiece] at hi ⊢
      rw [← (Store.openSlot_store hopen).2.1]
      exact .inl hi
  | marked j =>
      rcases Store.eq_of_hasPiece_mark hi with hi | rfl
      · exact .inl hi
      · exact .inr rfl
  | _ => exact .inl hi

/-- The bitmap that is to be written is the one in memory. -/
theorem Effect.eq_of_saving {bitmap : Bytes} (h : Effect fault s t w (.saving bitmap) s' t') :
    bitmap = s'.completed.bytes := by
  cases h with
  | marked => rfl

/-- The resume file is cut after a bitmap was written to it, or a part of one. -/
theorem Effect.of_cutting {n : Nat} {failure : Option IoError}
    (h : Effect fault s t w (.cutting n failure) s' t') :
    ∃ bitmap, w = .saving bitmap ∧ n = bitmap.length ∧ failure = fault.map (·.error) ∧ s' = s ∧
      t' = t.writeAt s.resume 0 (Fault.passed fault bitmap) := by
  cases h with
  | saved bitmap => exact ⟨bitmap, rfl, rfl, rfl, rfl, rfl⟩

/-- Writing that has begun ends with no other error than that of a file. -/
theorem Effect.io_of_error {e : StorageError}
    (h : Effect fault s t w (.finished (.error e)) s' t') :
    w = .finished (.error e) ∨ ∃ cause, e = .io cause := by
  cases h with
  | unopened => exact .inr ⟨_, rfl⟩
  | barred => exact .inr ⟨_, rfl⟩
  | torn => exact .inr ⟨_, rfl⟩
  | spoiled => exact .inr ⟨_, rfl⟩
  | ended => exact .inl rfl

theorem giveUp_grows (w : Writing) (s : Store) : s.Grows (w.giveUp s) := by
  cases w <;> exact Store.grows_of_completed_eq rfl rfl

/-! ## The piece that is written -/

/-- Whether the bit of the piece is set and the piece not refused. -/
def isMarked : Writing → Bool
  | .saving _ | .cutting _ _ | .finished (.ok ()) => true
  | .placing _ _ | .opened _ _ _ | .marking _ | .finished (.error _) => false

/-- The chunk that is written next, into a file that is open. -/
def next? : Writing → Option Chunk
  | .opened _ _ (c :: _) => some c
  | _ => none

/-- What is about to be written is tried. -/
theorem Effect.ne_of_next? {c : Chunk} (h : Effect fault s t w w' s' t')
    (hnext : w.next? = some c) : w' ≠ w := by
  cases h with
  | written => nofun
  | torn => nofun
  | _ => cases hnext

/-- Whether the resume file is being rewritten. -/
def isRewriting : Writing → Bool
  | .saving _ | .cutting _ _ => true
  | _ => false

/-- The writing is that of a piece: until the bit is set it names the piece, and then the store has
the piece. -/
def Tracks (i : PieceIndex) (s : Store) : Writing → Prop
  | .placing j _ | .opened j _ _ | .marking j => j = i
  | .saving _ | .cutting _ _ | .finished (.ok ()) => s.hasPiece i = true
  | .finished (.error _) => True

theorem Tracks.grows {i : PieceIndex} (h : w.Tracks i s) (hs : s.Grows s') : w.Tracks i s' := by
  cases w with
  | finished result =>
      cases result with
      | error e => trivial
      | ok u => exact hs.bits i h
  | saving bitmap => exact hs.bits i h
  | cutting n failure => exact hs.bits i h
  | _ => exact h

/-- Writing is refused at once, or begins with its first segment. -/
theorem write_cases (s : Store) (i : PieceIndex) (data : Bytes) :
    (∃ e, s.write i data = .finished (.error e)) ∨ ∃ left, s.write i data = .placing i left := by
  simp only [Store.write]
  split
  next => exact .inl ⟨_, rfl⟩
  next =>
    split
    next => exact .inl ⟨_, rfl⟩
    next =>
      split
      next => exact .inl ⟨_, rfl⟩
      next => exact .inr ⟨_, rfl⟩

/-- Writing does not begin with the resume file. -/
theorem isRewriting_write (s : Store) (i : PieceIndex) (data : Bytes) :
    (s.write i data).isRewriting = false := by
  rcases write_cases s i data with ⟨e, hwrite⟩ | ⟨left, hwrite⟩
  · rw [hwrite]
    rfl
  · rw [hwrite]
    rfl

theorem isMarked_write (s : Store) (i : PieceIndex) (data : Bytes) :
    (s.write i data).isMarked = false := by
  rcases write_cases s i data with ⟨e, hwrite⟩ | ⟨left, hwrite⟩
  · rw [hwrite]
    rfl
  · rw [hwrite]
    rfl

/-- Writing does not begin behind the bit of its piece. -/
theorem isMarked_of_eq_write {w : Writing} {s : Store} {i : PieceIndex} {data : Bytes}
    (h : w = s.write i data) : w.isMarked = false :=
  h ▸ isMarked_write s i data

theorem tracks_write (s : Store) (i : PieceIndex) (data : Bytes) : (s.write i data).Tracks i s := by
  rcases write_cases s i data with ⟨e, hwrite⟩ | ⟨left, hwrite⟩
  · rw [hwrite]
    trivial
  · rw [hwrite]
    rfl

/-- A step of writing keeps to its piece, if the bitmap reaches to it when its bit is set. -/
theorem Tracks.step {i : PieceIndex} (h : w.Tracks i s)
    (hi : w = .marking i → i.toNat / 8 < s.completed.bytes.length)
    (he : Effect fault s t w w' s' t') : w'.Tracks i s' := by
  cases he with
  | marked j =>
      obtain rfl : j = i := h
      exact Store.hasPiece_mark (hi rfl) true
  | unopened => trivial
  | barred => trivial
  | torn => trivial
  | spoiled => trivial
  | _ => exact h

end Writing

end Torrent
