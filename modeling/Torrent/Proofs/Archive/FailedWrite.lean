import Torrent.Proofs.Archive.Manned
import Torrent.Proofs.Store.Faults
import Torrent.Proofs.Store.Opening

/-!
# Writing that fails

A piece whose writing fails changes no answer about another piece, but for bytes
that come to light as zeros where a file has grown (`Archive.failed_write`).  The
bit of the piece itself is set before the resume file is written, so it stays set
when only that has failed.
-/

namespace Torrent

/-! ## Other pieces -/

namespace Writing.Sited

variable {w w' : Writing} {s₀ s s' : Store} {t₀ t t' : FileTree} {faults : List (Option Fault)}
  {i j : PieceIndex} {data block : Bytes} {d : Descriptor} {start length : Nat}

/-- A stretch of another piece that was read is read again behind the writing. -/
theorem read_again (h : w.Sited d i data s t) (hd : d.Sound) (hne : i ≠ j)
    (hunder : w.under faults s t = (w', s', t')) (hs₀ : s₀.Housed t₀)
    (hread : s₀.readBlock t₀ j start length = (some block, s, t))
    (hbit : s'.hasPiece j = s₀.hasPiece j) :
    (s'.readBlock t' j start length).1 = some block := by
  obtain ⟨hextends, -, hlayout, -⟩ := Store.readBlock_keeps hs₀.handles hread
  obtain ⟨hthere, hpos, rfl, -, hwithin, gs, hsegments, hchunks⟩ := Store.readBlock_eq_some hread
  have hstretch : s.Stretch j start block.length gs :=
    Store.Stretch.of_layout ⟨hwithin, hsegments⟩ hlayout
  have hheld : ∀ c ∈ deal gs block, s.Holds t c := by
    intro c hc
    obtain ⟨id, hreaches, hcontent⟩ := hchunks c hc
    exact ⟨id, (hreaches.fileAt hs₀.handles hextends.toKeeps).keeps hlayout (.refl t), hcontent⟩
  have hstretch' := hstretch.of_layout (under_grows hunder).layout
  obtain ⟨s'', hagain⟩ := hstretch'.readBlock (sited_under h hunder).housed.handles
    (hbit.trans hthere) hpos (h.holds hd hne hstretch hheld hunder)
  exact congrArg Prod.fst hagain

/-- What is read of another piece behind the writing is what the files had before it. -/
theorem read_bytes (h : w.Sited d i data s t) (hd : d.Sound) (hne : i ≠ j)
    (hunder : w.under faults s t = (w', s', t'))
    (hread : (s'.readBlock t' j start length).1 = some block) :
    ∃ gs, s.segments? ((s.pieceStart j).toNat + start) length = some gs ∧
      block = s.bytesIn t gs := by
  have hread' : s'.readBlock t' j start length =
      (some block, (s'.readBlock t' j start length).2) := Prod.ext hread rfl
  obtain ⟨gs, hstretch, rfl⟩ :=
    Store.readBlock_eq_bytesIn (sited_under h hunder).housed.handles hread'
  have hstretch' := hstretch.of_layout (under_grows hunder).layout.symm
  exact ⟨gs, hstretch'.segments, h.bytesIn hd hne hstretch' hunder⟩

end Writing.Sited

namespace Archive

/-- What the answers of a store are after writing has failed.  The bitmap is as before, unless
writing came as far as the resume file: then the bit of the piece is set and all of the piece is in
its files.  A refusal has touched nothing.  A stretch of another piece that was read before is read
again, one that was refused is refused, and what is read is what the files had before, with zeros
where they came up short. -/
theorem failed_write (s : Store) (t : FileTree) (i : PieceIndex) (data : Bytes)
    (faults : List (Option Fault)) (e : StorageError) (s' : Store) (t' : FileTree)
    (hfailed : (s.write i data).under faults s t = (.finished (.error e), s', t')) :
    let saves := (s.write i data).saves faults s t
    s'.completed = (if saves then s.completed.insert i else s.completed) ∧
      (∀ j, j ≠ i → s'.hasPiece j = s.hasPiece j) ∧
      ((∀ cause, e ≠ .io cause) → s' = s ∧ t' = t) ∧
      ∀ (d : Descriptor) (root name : List Char) (tree tree' : FileTree) (opened : Store),
        d.check = .ok () → Store.open_ tree root d name = (.ok opened, tree') →
        (Store.placesOf tree root name d).Nodup → ∀ before : List Act,
        let a := (idle opened tree').run before
        (a.store = s → a.tree = t → saves = true →
          s'.hasPiece i = true ∧ s'.Lies t' i data []) ∧
        ∀ j, j ≠ i → ∀ start length : Nat,
          let seen := a.store.readBlock a.tree j start length
          let again := (s'.readBlock t' j start length).1
          seen.2 = (s, t) →
            (∀ block, seen.1 = some block → again = some block) ∧
            (a.store.read j start length = .finished none → again = none) ∧
            ∀ block, again = some block →
              ∃ gs, s.segments? ((s.pieceStart j).toNat + start) length = some gs ∧
                block = s.bytesIn t gs := by
  intro saves
  have htracks := Writing.tracks_write s i data
  have hmarked := Writing.isMarked_write s i data
  have hcompleted : s'.completed = if saves then s.completed.insert i else s.completed :=
    Writing.completed_under htracks hmarked hfailed
  have hother : ∀ j, j ≠ i → s'.hasPiece j = s.hasPiece j := fun j hne =>
    Writing.hasPiece_under hne htracks hmarked hfailed
  refine ⟨hcompleted, hother, fun he => Writing.under_refused he hfailed, ?_⟩
  intro d root name tree tree' opened hcheck hopen hplaces before a
  have hd := Descriptor.sound_of_check hcheck
  have hidle := manned_idle hopen
  have ha : a.Manned d :=
    run_moments (P := Manned d) hidle fun _ _ _ _ hturn hb => hb.turn hturn
  have hhoused : a.store.Housed a.tree :=
    (later_run hidle.settled before).housed (Store.housed_open hopen hplaces)
  refine ⟨?_, fun j hne start length => ?_⟩
  · rintro rfl rfl hsaves
    have hsited : (a.store.write i data).Sited d i data a.store a.tree :=
      ⟨hhoused, ha.fits, Writing.carries_write a.store a.tree i data⟩
    have hlies := hsited.lies hsaves hfailed
    refine ⟨?_, hlies⟩
    obtain ⟨gs, done, hlaid, -⟩ := hlies
    have hbound := div_lt_byteLength (hlaid.lt (Writing.sited_under hsited hfailed).fits)
    rw [← ha.size] at hbound
    simp only [Store.hasPiece, Bitfield.has]
    rw [hcompleted, if_pos hsaves, Bitfield.bit_insert]
    simp [hbound]
  · intro seen again hseen
    have hread : a.store.readBlock a.tree j start length = (seen.1, s, t) := Prod.ext rfl hseen
    obtain ⟨-, -, hlayout, hsame⟩ := Store.readBlock_keeps hhoused.handles hread
    have hsited : (s.write i data).Sited d i data s t :=
      ⟨Store.readBlock_housed hhoused hread, ha.fits.of_layout hlayout,
        Writing.carries_write s t i data⟩
    have hbit : s'.hasPiece j = a.store.hasPiece j := by
      rw [hother j hne]
      exact congrArg (Bitfield.has · j) hsame
    refine ⟨fun block hblock => ?_, fun hrefused => ?_, fun block hblock => ?_⟩
    · rw [hblock] at hread
      exact hsited.read_again hd (Ne.symm hne) hfailed hhoused hread hbit
    · have hnone := Store.read_of_layout
        ((Writing.under_grows hfailed).layout.trans hlayout) hbit start length
      rw [hrefused] at hnone
      simp only [again, Store.readBlock]
      rw [hnone, Reading.run_finished]
    · exact hsited.read_bytes hd (Ne.symm hne) hfailed hblock

/-- The second piece fails at its second file, and another time at the resume file, where its bit is
set already.  The first piece is read before and behind. -/
theorem failed_write_second_piece :
    let d : Descriptor := ⟨⟨.zero 20⟩, 4, 2, [.zero 20, .zero 20], [⟨"a", 3⟩, ⟨"b", 1⟩]⟩
    let before : List Act := .write 0 [1, 2] :: List.replicate 6 (.proceed 0 none)
    d.check = .ok () ∧ (Store.placesOf (.empty []) ['t'] ['r'] d).Nodup ∧
      ∃ s tree, Store.open_ (.empty []) ['t'] d ['r'] = (.ok s, tree) ∧
        let a := (idle s tree).run before
        let seen := a.store.readBlock a.tree 0 0 2
        let write := fun faults =>
          (seen.2.1.write 1 [3, 4]).under faults seen.2.1 seen.2.2
        let torn := write [none, none, some ⟨0, .notFound⟩]
        let unsaved := write (List.replicate 6 none ++ [some ⟨1, .notFound⟩, none])
        seen.1 = some [1, 2] ∧ torn.1 = .finished (.error (.io .notFound)) ∧
          torn.2.1.completed = seen.2.1.completed ∧
          (torn.2.1.readBlock torn.2.2 0 0 2).1 = some [1, 2] ∧
          unsaved.1 = .finished (.error (.io .notFound)) ∧ unsaved.2.1.hasPiece 1 = true ∧
          unsaved.2.1.Lies unsaved.2.2 1 [3, 4] [] := by
  have hopen : Store.open_ (.empty []) ['t']
    ⟨⟨.zero 20⟩, 4, 2, [.zero 20, .zero 20], [⟨"a", 3⟩, ⟨"b", 1⟩]⟩ ['r'] = (.ok _, _) := rfl
  refine ⟨rfl, by decide, _, _, hopen, ?_⟩
  intro a seen write torn unsaved
  have hseen : seen.1 = some [1, 2] := by decide +kernel
  have htorn : torn.1 = .finished (.error (.io .notFound)) := by decide +kernel
  have hunsaved : unsaved.1 = .finished (.error (.io .notFound)) := by decide +kernel
  have hdata := failed_write _ _ 1 [3, 4] _ _ torn.2.1 torn.2.2 (Prod.ext htorn rfl)
  have hresume := failed_write _ _ 1 [3, 4] _ _ unsaved.2.1 unsaved.2.2 (Prod.ext hunsaved rfl)
  have hother := (hdata.2.2.2 _ ['t'] ['r'] (.empty []) _ _ rfl hopen (by decide)
    (.write 0 [1, 2] :: List.replicate 6 (.proceed 0 none))).2 0 (by decide) 0 2 rfl
  have hown := (hresume.2.2.2 _ ['t'] ['r'] (.empty []) _ _ rfl hopen (by decide)
    (.write 0 [1, 2] :: List.replicate 6 (.proceed 0 none))).1 (by decide +kernel)
    (by decide +kernel) (by decide +kernel)
  refine ⟨hseen, htorn, ?_, hother.1 _ hseen, hunsaved, hown⟩
  rw [hdata.1]
  exact if_neg (by decide +kernel)

/-- Answers that change with a write that fails.  A piece is reported when only the resume file
could not be written.  A stretch of a reported piece whose file was too short is read when the file
has grown.  And the bytes of a piece change where a description that does not check has another
piece wrap round to the same range. -/
theorem failed_write_changes_answers :
    (let d : Descriptor := ⟨⟨.zero 20⟩, 1, 1, [.zero 20], [⟨"a", 1⟩]⟩
      ∃ s t, Store.open_ (.empty []) ['t'] d ['r'] = (.ok s, t) ∧
        let faults := List.replicate 4 none ++ [some ⟨0, .notFound⟩, none]
        let failed := (s.write 0 [7]).under faults s t
        failed.1 = .finished (.error (.io .notFound)) ∧ s.hasPiece 0 = false ∧
          failed.2.1.hasPiece 0 = true) ∧
    (let d : Descriptor := ⟨⟨.zero 20⟩, 4, 2, [.zero 20, .zero 20], [⟨"a", 3⟩, ⟨"b", 1⟩]⟩
      let tree : FileTree := ⟨[([['t']], .directory), ([['t'], ['r']], .file 0),
        ([['t'], ['b']], .directory)], [[0x80]], [], by decide, by decide⟩
      d.check = .ok () ∧ (Store.placesOf tree ['t'] ['r'] d).Nodup ∧
        ∃ s t, Store.open_ tree ['t'] d ['r'] = (.ok s, t) ∧
          let seen := s.readBlock t 0 0 2
          let failed := (seen.2.1.write 1 [3, 4]).under (List.replicate 3 none) seen.2.1 seen.2.2
          seen.1 = none ∧ failed.1 = .finished (.error (.io .isDirectory)) ∧
            (failed.2.1.readBlock failed.2.2 0 0 2).1 = some [0, 0]) ∧
    (let d : Descriptor :=
        ⟨⟨.zero 20⟩, 3, 9223372036854775808, [.zero 20, .zero 20, .zero 20], [⟨"a", 3⟩]⟩
      ∃ s t, Store.open_ (.empty []) ['t'] d ['r'] = (.ok s, t) ∧
        let whole := s.writePiece t 0 [1, 2, 3]
        let seen := whole.2.1.readBlock whole.2.2 0 0 3
        let failed := (seen.2.1.write 2 [7, 8, 9]).under [none, some ⟨3, .notFound⟩]
          seen.2.1 seen.2.2
        whole.1 = .ok () ∧ seen.1 = some [1, 2, 3] ∧
          failed.1 = .finished (.error (.io .notFound)) ∧
          (failed.2.1.readBlock failed.2.2 0 0 3).1 = some [7, 8, 9]) := by
  refine ⟨⟨_, _, rfl, ?_⟩, ⟨rfl, by decide, _, _, rfl, ?_⟩, ⟨_, _, rfl, ?_⟩⟩
  · decide +kernel
  · decide +kernel
  · decide +kernel

end Archive

end Torrent
