import Torrent.Proofs.Store.Placement

/-!
# Positions of a torrent

The bytes of a torrent are numbered through all its files.  `Store.Shows` says
that the byte at a position is in the file there.

A piece that lies in its files shows all its bytes (`Store.Lies.shows`), and a
range that shows its bytes has its chunks in the files (`Store.holds_of_shows`).
So every stretch of a piece can be read, although its segments are not those in
which the piece was written (`Store.Lies.holds_slice`).
-/

namespace Torrent

/-- Where the chunks of a range are in files, each of its bytes is at the place of its position. -/
theorem Walk.byte {lengths : List Nat} {start : Nat} {data : Bytes} {gs : List Segment}
    {t : FileTree} {IsAt : Nat → FileId → Prop} (h : Walk 0 lengths start data.length gs)
    (hchunks : ∀ c ∈ deal gs data,
      ∃ id, IsAt c.1.file id ∧ (t.content id).stretch c.1.start c.1.length = c.2)
    {p : Nat} {b : UInt8} (hb : data[p]? = some b) :
    ∃ file place size id, lengths[file]? = some size ∧ place < size ∧
      offset lengths file + place = start + p ∧ IsAt file id ∧
      (t.content id)[place]? = some b := by
  obtain ⟨hp, -⟩ := List.getElem?_eq_some_iff.1 hb
  obtain ⟨g, hg, k, hk, hreached⟩ := h.reaches hp
  rw [← fst_deal gs data] at hg
  obtain ⟨c, hc, rfl⟩ := List.mem_map.1 hg
  obtain ⟨p', size, hbytes, hend, hpos, hat, hsize, hinside⟩ := h.chunk rfl c hc
  obtain ⟨id, hfile, hcontent⟩ := hchunks c hc
  simp only [Nat.sub_zero] at hreached hat hsize
  refine ⟨c.1.file, c.1.start + k, size, id, hsize, by omega, by omega, hfile, ?_⟩
  have hbyte : ((t.content id).stretch c.1.start c.1.length)[k]? = c.2[k]? := by rw [hcontent]
  rw [Bytes.getElem?_stretch, if_pos hk, hbytes, List.getElem?_take, if_pos hk,
    List.getElem?_drop] at hbyte
  have hsame : p' + k = p := by omega
  rw [hbyte, hsame, hb]

namespace Store

variable {s s' : Store} {t t' : FileTree} {i : PieceIndex} {data : Bytes}

/-- The byte at a position of the torrent is in the file there. -/
def Shows (s : Store) (t : FileTree) (pos : Nat) (b : UInt8) : Prop :=
  ∃ file start size id, s.lengths[file]? = some size ∧ start < size ∧
    offset s.lengths file + start = pos ∧ s.FileAt t file id ∧ (t.content id)[start]? = some b

theorem Lies.shows (h : s.Lies t i data []) {p : Nat} {b : UInt8} (hb : data[p]? = some b) :
    s.Shows t ((s.pieceStart i).toNat + p) b := by
  obtain ⟨gs, done, hlaid, hdeal, hdone⟩ := h
  rw [List.append_nil] at hdeal
  subst hdeal
  refine hlaid.walk.byte (fun c hc => ?_) hb
  obtain ⟨id, hfile, hcontent, -⟩ := hdone c hc
  exact ⟨id, hfile, hcontent⟩

/-- A range that shows its bytes has its chunks in the files. -/
theorem holds_of_shows {start : Nat} {gs : List Segment}
    (hsegments : s.segments? start data.length = some gs)
    (hshows : ∀ p b, data[p]? = some b → s.Shows t (start + p) b) {c : Chunk}
    (hc : c ∈ deal gs data) : s.Holds t c := by
  have hwalk : Walk 0 s.lengths start data.length gs := .of_segmentsFrom hsegments
  obtain ⟨p, size, hbytes, hend, hpos, hat, hsize, hinside⟩ := hwalk.chunk rfl c hc
  simp only [Nat.sub_zero] at hat hsize
  have hbyte : ∀ k < c.1.length, ∃ id, s.FileAt t c.1.file id ∧
      (t.content id)[c.1.start + k]? = data[p + k]? := by
    intro k hk
    have hget := List.getElem?_eq_getElem (show p + k < data.length by omega)
    obtain ⟨file, place, size', id, hsize', hplace, hat', hfile, hcontent⟩ :=
      hshows (p + k) _ hget
    obtain ⟨rfl, rfl⟩ := place_unique hsize' hsize hplace
      (show c.1.start + k < size by omega) (by omega)
    exact ⟨id, hfile, hcontent.trans hget.symm⟩
  obtain ⟨id, hfile, -⟩ := hbyte 0 hpos
  have hlength : c.2.length = c.1.length := by
    rw [hbytes, List.length_take, List.length_drop]
    omega
  refine ⟨id, hfile, List.ext_getElem? fun k => ?_, hlength⟩
  rw [Bytes.getElem?_stretch]
  by_cases hk : k < c.1.length
  · obtain ⟨id', hfile', hcontent⟩ := hbyte k hk
    obtain rfl := hfile'.unique hfile
    rw [if_pos hk, hcontent, hbytes, List.getElem?_take, if_pos hk, List.getElem?_drop]
  · rw [if_neg hk, List.getElem?_eq_none (by omega)]

/-- The chunks of a stretch of a piece are in the files with the piece. -/
theorem Lies.holds_slice (h : s.Lies t i data []) {start length : Nat}
    (hend : start + length ≤ data.length) :
    ∃ gs, s.segments? ((s.pieceStart i).toNat + start) length = some gs ∧
      ∀ c ∈ deal gs ((data.drop start).take length), s.Holds t c := by
  obtain ⟨gs, hgs⟩ : ∃ gs, Walk 0 s.lengths ((s.pieceStart i).toNat + start) length gs := by
    obtain ⟨gs, -, hlaid, -⟩ := h
    rw [Walk.exists_iff]
    have := (Walk.exists_iff ..).1 ⟨gs, hlaid.walk⟩
    omega
  have hlength := Bytes.length_slice hend
  have hsegments : s.segments? ((s.pieceStart i).toNat + start) length = some gs :=
    hgs.segmentsFrom_eq
  refine ⟨gs, hsegments, fun c hc => ?_⟩
  rw [← hlength] at hsegments
  refine holds_of_shows hsegments (fun p b hb => ?_) hc
  rw [List.getElem?_take] at hb
  split at hb
  next =>
    rw [List.getElem?_drop] at hb
    rw [Nat.add_assoc]
    exact h.shows hb
  next => cases hb

end Store

end Torrent
