import Torrent.Proofs.Store.Opening

/-!
# The resume file

A resume file says what its bits say, if it is as long as the bitmap, and else
nothing (`Store.bit_bitmapOf`).  A bitmap is written over the front of the file, so
when a part of it was written each bit is that of the bitmap or the old one
(`Store.bit_of_bit_writeAt`).  A file of just the right length is taken as it is
(`Store.bitmapOf_eq`).
-/

namespace Torrent

/-- A bitmap has a byte for each of its pieces. -/
theorem div_lt_byteLength {i n : Nat} (h : i < n) : i / 8 < byteLength n := by
  simp only [byteLength]
  omega

namespace Bytes

variable {bytes : Bytes}

/-- A block written over the front. -/
theorem writeAt_zero (base block : Bytes) :
    base.writeAt 0 block = block ++ base.drop block.length := by
  simp [writeAt, overlay_eq, padTo, zeros]

/-- A byte string that is cut keeps its front. -/
theorem resize_eq_take {n : Nat} (h : n ≤ bytes.length) : bytes.resize n = bytes.take n := by
  simp only [resize, padTo]
  rw [List.take_append_of_le_length h]

end Bytes

namespace Bitfield

theorem bit_empty (n i : Nat) : (empty n).bit i = false := by
  rw [bit_eq]
  split
  next b hb =>
    obtain rfl : b = 0 := List.eq_of_mem_replicate (List.mem_of_getElem? hb)
    simp [bitOfByte]
  next => rfl

/-- The front of a bitmap has the bits that it reaches. -/
theorem bit_take (bytes : Bytes) (n i : Nat) :
    (⟨bytes.take n⟩ : Bitfield).bit i = (decide (i / 8 < n) && (⟨bytes⟩ : Bitfield).bit i) := by
  rw [bit_eq, bit_eq]
  dsimp only
  rw [List.getElem?_take]
  by_cases hi : i / 8 < n
  · simp [hi]
  · simp [hi]

/-- A bitmap has the bits of its front, and behind it those of the rest. -/
theorem bit_append_drop (front bytes : Bytes) (i : Nat) :
    (⟨front ++ bytes.drop front.length⟩ : Bitfield).bit i =
      if i / 8 < front.length then (⟨front⟩ : Bitfield).bit i
      else (⟨bytes⟩ : Bitfield).bit i := by
  split
  next hi =>
    rw [bit_eq, bit_eq]
    dsimp only
    rw [List.getElem?_append_left hi]
  next hi =>
    have hle := Nat.le_of_not_lt hi
    rw [bit_eq, bit_eq]
    dsimp only
    rw [List.getElem?_append_right hle, List.getElem?_drop, Nat.add_sub_cancel' hle]

end Bitfield

namespace Store

variable {resume bitmap : Bytes} {n i : Nat}

theorem bit_bitmapOf (resume : Bytes) (n i : Nat) :
    (bitmapOf resume n).bit i =
      (decide (byteLength n ≤ resume.length ∧ i / 8 < byteLength n) &&
        (⟨resume⟩ : Bitfield).bit i) := by
  simp only [bitmapOf]
  split
  next hlength =>
    rw [Bitfield.bit_take]
    simp [hlength]
  next hshort =>
    rw [Bitfield.bit_empty]
    simp [hshort]

/-- A file of the length of the bitmap is the bitmap. -/
theorem bitmapOf_eq (h : resume.length = byteLength n) : bitmapOf resume n = ⟨resume⟩ := by
  simp only [bitmapOf]
  rw [if_pos (Nat.le_of_eq h.symm), ← h, List.take_length]

/-- A file that is cut to the length of the bitmap says what it said. -/
theorem bitmapOf_resize (h : byteLength n ≤ resume.length) :
    bitmapOf (resume.resize (byteLength n)) n = bitmapOf resume n := by
  rw [bitmapOf_eq (Bytes.length_resize ..), Bytes.resize_eq_take h]
  simp only [bitmapOf]
  rw [if_pos h]

/-- A bit of a file to which a part of a bitmap was written is a bit of the bitmap or was there. -/
theorem bit_of_bit_writeAt {m : Nat}
    (h : (bitmapOf (resume.writeAt 0 (bitmap.take m)) n).bit i = true) :
    (⟨bitmap⟩ : Bitfield).bit i = true ∨ (bitmapOf resume n).bit i = true := by
  rw [bit_bitmapOf, Bool.and_eq_true, decide_eq_true_eq, Bytes.writeAt_zero,
    Bitfield.bit_append_drop] at h
  obtain ⟨⟨hreaches, hi⟩, hbit⟩ := h
  rw [List.length_append, List.length_drop, List.length_take] at hreaches
  split at hbit
  next =>
    rw [Bitfield.bit_take, Bool.and_eq_true] at hbit
    exact .inl hbit.2
  next hbehind =>
    rw [List.length_take] at hbehind
    refine .inr ?_
    rw [bit_bitmapOf, Bool.and_eq_true, decide_eq_true_eq]
    exact ⟨⟨by omega, hi⟩, hbit⟩

/-- A bit of a file is there when a part of a bitmap was written that has it too. -/
theorem bit_writeAt_of_bit {m : Nat} (h : (bitmapOf resume n).bit i = true)
    (hbitmap : (⟨bitmap⟩ : Bitfield).bit i = true) :
    (bitmapOf (resume.writeAt 0 (bitmap.take m)) n).bit i = true := by
  rw [bit_bitmapOf, Bool.and_eq_true, decide_eq_true_eq] at h ⊢
  obtain ⟨⟨hreaches, hi⟩, hbit⟩ := h
  rw [Bytes.writeAt_zero, Bitfield.bit_append_drop, List.length_append, List.length_drop]
  refine ⟨⟨by omega, hi⟩, ?_⟩
  split
  next hfront =>
    rw [List.length_take] at hfront
    rw [Bitfield.bit_take, Bool.and_eq_true, decide_eq_true_eq]
    exact ⟨by omega, hbitmap⟩
  next => exact hbit

theorem Settled.resume_lt {s : Store} {t : FileTree} (h : s.Settled t) :
    s.resume < t.contents.length :=
  FileTree.lt_size_of_entryAt h.resume

end Store

/-- A step of writing leaves the resume file alone, unless it works on the bitmap or writes to a
file that is the resume file. -/
theorem Writing.Effect.resume {fault : Option Fault} {s s' : Store} {t t' : FileTree}
    {w w' : Writing} (h : Effect fault s t w w' s' t') (hs : s.Settled t) :
    t'.content s.resume = t.content s.resume ∨
      (∃ bitmap, w = .saving bitmap ∧
        t'.content s.resume = (t.content s.resume).writeAt 0 (Fault.passed fault bitmap)) ∨
      (∃ n failure, w = .cutting n failure ∧
        t'.content s.resume = (t.content s.resume).resize n) ∨
      ∃ i c rest, w = .opened i s.resume (c :: rest) := by
  have hwrite : ∀ (i : PieceIndex) (id : FileId) (c : Chunk) (rest : List Chunk) (bytes : Bytes),
      w = .opened i id (c :: rest) →
      (t.writeAt id c.1.start bytes).content s.resume = t.content s.resume ∨
        ∃ i c rest, w = .opened i s.resume (c :: rest) := by
    rintro i id c rest bytes rfl
    by_cases hid : id = s.resume
    · subst hid
      exact .inr ⟨i, c, rest, rfl⟩
    · exact .inl (FileTree.content_setContent_of_ne hid _)
  cases h with
  | opening hopen => exact .inl ((Store.openSlot_spec hs.handles hopen).1.content _)
  | unopened hopen => exact .inl ((Store.openSlot_spec hs.handles hopen).1.content _)
  | written i id g bytes rest =>
      rcases hwrite i id (g, bytes) rest bytes rfl with hsame | hresume
      · exact .inl hsame
      · exact .inr (.inr (.inr hresume))
  | torn i id g bytes rest n e =>
      rcases hwrite i id (g, bytes) rest (bytes.take n) rfl with hsame | hresume
      · exact .inl hsame
      · exact .inr (.inr (.inr hresume))
  | saved bitmap =>
      exact .inr (.inl ⟨bitmap, rfl, FileTree.content_setContent_self hs.resume_lt _⟩)
  | closed n =>
      exact .inr (.inr (.inl ⟨n, none, rfl, FileTree.content_setContent_self hs.resume_lt _⟩))
  | @spoiled n failure e t' hfailure ht =>
      rcases ht with rfl | rfl
      · exact .inl rfl
      · exact .inr (.inr (.inl ⟨n, failure, rfl, FileTree.content_setContent_self hs.resume_lt _⟩))
  | _ => exact .inl rfl

end Torrent
