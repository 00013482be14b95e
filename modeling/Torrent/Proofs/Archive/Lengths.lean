import Torrent.Proofs.Archive.Turns
import Torrent.Proofs.Descriptor.Joined
import Torrent.Proofs.Store.Partition

/-!
# Lengths of pieces

The length of a piece is computed twice: for the description, where the product is
checked, and for the store, where it is not.  `Store.Measures` is what the one length
means to both: the piece begins inside the torrent, is full unless it is the last, and
its range has segments.  A store that was opened for a description that passed its
check measures every piece (`Store.Fits.measures`), the lengths add up to the torrent
(`Descriptor.Sound.sum_lengthAt`), and no write of such a length is refused
(`Archive.io_of_write_failed`).
-/

namespace Torrent

/-! ## All pieces together -/

namespace Descriptor.Sound

variable {d : Descriptor} (hd : d.Sound)
include hd

/-- Every piece but the last is full. -/
theorem lengthAt_of_not_last {i : Nat} (hi : i + 1 < d.pieceCount) :
    d.lengthAt i = d.pieceLength.toNat := by
  have hnext := hd.start_lt hi
  rw [Nat.succ_mul] at hnext
  simp only [lengthAt]
  omega

/-- The pieces are as long as the torrent. -/
theorem sum_lengthAt : ((List.range d.pieceCount).map d.lengthAt).sum = d.totalLength.toNat := by
  have hjoined : (d.joined fun k => Bytes.zeros (d.lengthAt k)).length = d.totalLength.toNat :=
    hd.length_joined fun k _ => Bytes.length_zeros _
  simp only [joined] at hjoined
  rw [List.length_flatMap] at hjoined
  simpa only [Bytes.length_zeros] using hjoined

/-- The lengths of the pieces as the description tells them, if every piece has a number. -/
theorem map_pieceLen? (hcount : d.pieceCount < UInt32.size) :
    (List.range d.pieceCount).map (fun i => d.pieceLen? (UInt32.ofNat i)) =
      ((List.range d.pieceCount).map fun i => UInt32.ofNat (d.lengthAt i)).map some := by
  rw [List.map_map]
  refine List.map_congr_left fun i hi => ?_
  have hlt := List.mem_range.1 hi
  have hnat : (UInt32.ofNat i).toNat = i := UInt32.toNat_ofNat_of_lt' (Nat.lt_trans hlt hcount)
  rw [hd.pieceLen?_eq (hnat.symm ▸ hlt), hnat]
  rfl

end Descriptor.Sound

/-! ## A piece in its store -/

namespace Store

/-- The length of a piece in a description and in a store: both find it, and the range of the
piece lies in the files.  No product or difference on the way leaves the words. -/
structure Measures (s : Store) (d : Descriptor) (i : PieceIndex) (length : UInt32) : Prop where
  described : d.pieceLen? i = some length
  stored : s.pieceLen? i = some length.toUInt64
  toNat_eq : length.toNat =
    min d.pieceLength.toNat (d.totalLength.toNat - i.toNat * d.pieceLength.toNat)
  pos : 1 ≤ length.toNat
  full : i.toNat + 1 < d.pieceCount → length.toUInt64 = d.pieceLength
  start_lt : i.toNat * d.pieceLength.toNat < d.totalLength.toNat
  rest : (s.totalLength - s.pieceStart i).toNat =
    d.totalLength.toNat - i.toNat * d.pieceLength.toNat
  segments : (s.segments? (s.pieceStart i).toNat length.toNat).isSome
  /-- The loop that looks for the segments takes no difference below zero. -/
  scanned : (Scan.run? 0 (s.slots.map Slot.length)
    ⟨s.pieceStart i, length.toUInt64, []⟩).isSome

variable {s : Store} {d : Descriptor} {i : PieceIndex}

/-- Behind the last piece there is none. -/
theorem Fits.pieceLen?_eq_none (h : s.Fits d) (hi : d.pieceCount ≤ i.toNat) :
    d.pieceLen? i = none ∧ s.pieceLen? i = none := by
  constructor
  · unfold Descriptor.pieceLen?
    exact if_pos (.inr (.inl hi))
  · unfold pieceLen?
    rw [h.pieceCount, if_pos hi]

theorem Fits.measures (h : s.Fits d) (hd : d.Sound)
    (hlengths : s.lengths = d.files.map fun file => file.length.toNat)
    (hi : i.toNat < d.pieceCount) : s.Measures d i (UInt32.ofNat (d.lengthAt i.toNat)) := by
  have hnat := hd.toNat_length (i := i.toNat)
  have hstart := hd.start_lt hi
  obtain ⟨length, hlength, hat⟩ := h.pieceLen?_eq hd hi
  have hword : length = (UInt32.ofNat (d.lengthAt i.toNat)).toUInt64 :=
    UInt64.toNat_inj.1 (by rw [UInt32.toNat_toUInt64, hnat, hat])
  refine ⟨hd.pieceLen?_eq hi, hword ▸ hlength, hnat, hnat.symm ▸ hd.lengthAt_pos hi, ?_, hstart,
    ?_, ?_, ?_⟩
  · intro hnext
    refine UInt64.toNat_inj.1 ?_
    rw [UInt32.toNat_toUInt64, hnat, hd.lengthAt_of_not_last hnext]
  · have hle : s.pieceStart i ≤ s.totalLength := by
      rw [UInt64.le_iff_toNat_le, h.toNat_pieceStart hd i, h.totalLength]
      exact Nat.le_of_lt hstart
    rw [UInt64.toNat_sub_of_le _ _ hle, h.toNat_pieceStart hd i, h.totalLength]
  · rw [hnat]
    exact Option.isSome_iff_exists.2 (h.exists_segments hd hlengths hi)
  · obtain ⟨last, hrun, -⟩ := Scan.run?_eq (s.slots.map Slot.length) 0
      ⟨s.pieceStart i, (UInt32.ofNat (d.lengthAt i.toNat)).toUInt64, []⟩
    exact Option.isSome_iff_exists.2 ⟨last, hrun⟩

end Store

/-! ## Writing a piece of the right length -/

namespace Archive

variable {d : Descriptor} {s : Store} {t tree : FileTree} {root name : List Char}

/-- A write of a piece, with as many bytes as the piece has, fails with no other error than that
of a file, whatever else is done with the store. -/
theorem io_of_write_failed (hcheck : d.check = .ok ())
    (hopen : Store.open_ t root d name = (.ok s, tree)) {i : PieceIndex}
    (hi : i.toNat < d.pieceCount) {data : Bytes} (hdata : data.length = d.lengthAt i.toNat)
    (acts : List Act) {e : StorageError}
    (hcall : .write i data (.finished (.error e)) ∈ ((idle s tree).run acts).calls) :
    ∃ cause, e = .io cause := by
  have hd := Descriptor.sound_of_check hcheck
  -- the layout stays, so no call is refused when it begins; behind that every error is of a file
  have hmoments : ((idle s tree).run acts).store.layout = s.layout ∧
      ∀ e, .write i data (.finished (.error e)) ∈ ((idle s tree).run acts).calls →
        ∃ cause, e = .io cause := by
    refine run_moments (a := idle s tree) (P := fun b => b.store.layout = s.layout ∧
      ∀ e, .write i data (.finished (.error e)) ∈ b.calls → ∃ cause, e = .io cause)
      ⟨rfl, fun e hnone => absurd hnone List.not_mem_nil⟩ ?_
    rintro act - a b hturn ⟨hlayout, hold⟩
    have hlayout' := hturn.grows.layout.trans hlayout
    refine ⟨hlayout', fun e hcall => ?_⟩
    rcases hturn.writing hcall with hbefore | ⟨-, hbegin⟩ | ⟨k, fault, w, -, hbefore, heffect⟩
    · exact hold e hbefore
    · have hlengths := (Store.lengths_of_layout hlayout').trans (Store.lengths_open hopen)
      obtain ⟨left, hwrite⟩ :=
        ((Store.fits_open hopen).of_layout hlayout').write_eq hd hlengths hi hdata
      rw [hwrite] at hbegin
      cases hbegin
    · rcases heffect.io_of_error with rfl | hio
      · exact hold e (List.mem_of_getElem? hbefore)
      · exact hio
  exact hmoments.2 e hcall

/-- The length of a piece is the same for a description that passed its check and for a store that
was opened for it, in every state the store is ever in; the lengths tile the torrent, and no write
of such a length is refused. -/
theorem piece_lengths_agree (hcheck : d.check = .ok ())
    (hopen : Store.open_ t root d name = (.ok s, tree)) (acts : List Act) :
    let b := (idle s tree).run acts
    (∀ i : PieceIndex, i.toNat * d.pieceLength.toNat < UInt64.size ∧
      (b.store.pieceStart i).toNat = i.toNat * d.pieceLength.toNat ∧
      (d.pieceCount ≤ i.toNat → d.pieceLen? i = none ∧ b.store.pieceLen? i = none) ∧
      (i.toNat < d.pieceCount → ∃ length, b.store.Measures d i length ∧
        ∀ data e, data.length = length.toNat →
          .write i data (.finished (.error e)) ∈ b.calls → ∃ cause, e = .io cause)) ∧
    (d.pieceCount < UInt32.size → ∃ lengths : List UInt32,
      (List.range d.pieceCount).map (fun i => d.pieceLen? (UInt32.ofNat i)) = lengths.map some ∧
      (lengths.map UInt32.toNat).sum = d.totalLength.toNat) := by
  intro b
  have hd := Descriptor.sound_of_check hcheck
  have hlayout : b.store.layout = s.layout := layout_run (idle s tree) acts
  have hfits := (Store.fits_open hopen).of_layout hlayout
  have hlengths := (Store.lengths_of_layout hlayout).trans (Store.lengths_open hopen)
  refine ⟨fun i => ⟨hd.start_lt_size i, hfits.toNat_pieceStart hd i, hfits.pieceLen?_eq_none,
    fun hi => ⟨_, hfits.measures hd hlengths hi, fun data e hdata hcall => ?_⟩⟩, fun hcount => ?_⟩
  · exact io_of_write_failed hcheck hopen hi (hdata.trans hd.toNat_length) acts hcall
  · refine ⟨_, hd.map_pieceLen? hcount, ?_⟩
    rw [List.map_map, ← hd.sum_lengthAt]
    exact congrArg List.sum (List.map_congr_left fun i _ => hd.toNat_length)

/-- A last piece that is short, and a write of it that fails at its file. -/
theorem piece_lengths_agree_short_last :
    let d : Descriptor := ⟨⟨.zero 20⟩, 3, 2, [.zero 20, .zero 20], [⟨"a", 3⟩]⟩
    let acts : List Act := [.write 1 [7], .proceed 0 (some ⟨0, .notFound⟩)]
    d.check = .ok () ∧ ∃ s tree, Store.open_ (.empty []) ['t'] d ['r'] = (.ok s, tree) ∧
      let b := (idle s tree).run acts
      b.store.Measures d 1 1 ∧ d.pieceLen? 2 = none ∧ b.store.pieceLen? 2 = none ∧
        (∃ e, .write 1 [7] (.finished (.error e)) ∈ b.calls ∧ ∃ cause, e = .io cause) ∧
        ∃ lengths : List UInt32, (List.range 2).map (fun i => d.pieceLen? (UInt32.ofNat i)) =
          lengths.map some ∧ (lengths.map UInt32.toNat).sum = 3 := by
  have hopen : Store.open_ (.empty []) ['t']
    ⟨⟨.zero 20⟩, 3, 2, [.zero 20, .zero 20], [⟨"a", 3⟩]⟩ ['r'] = (.ok _, _) := rfl
  obtain ⟨hpieces, hsum⟩ :=
    piece_lengths_agree rfl hopen [.write 1 [7], .proceed 0 (some ⟨0, .notFound⟩)]
  obtain ⟨-, -, -, hpiece⟩ := hpieces 1
  obtain ⟨length, hmeasures, hwrites⟩ := hpiece (by decide)
  obtain rfl : length = 1 := by
    have hdescribed := hmeasures.described
    cases hdescribed
    rfl
  obtain ⟨hnone, hnone'⟩ := (hpieces 2).2.2.1 (by decide)
  refine ⟨rfl, _, _, hopen, hmeasures, hnone, hnone', ⟨.io .notFound, ?_, ?_⟩, hsum (by decide)⟩
  · decide +kernel
  · exact hwrites [7] _ rfl (by decide +kernel)

end Archive

end Torrent
