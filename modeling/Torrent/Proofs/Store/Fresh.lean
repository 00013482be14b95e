import Torrent.Proofs.Store.ResumeFile

/-!
# A store in an empty directory

A store opened where none of its files is there reports no piece
(`Store.hasPiece_open`), and opening brings none of its files there
(`Store.not_standsAt_open`).
-/

namespace Torrent.Store

variable {s : Store} {t t' : FileTree} {root name : List Char} {d : Descriptor}

/-- Without a resume file no bit is set. -/
theorem bit_bitmapOf_nil (n i : Nat) : (bitmapOf [] n).bit i = false := by
  rw [bit_bitmapOf, Bitfield.bit_eq]
  simp

/-- What stands at a place after a store was opened stood there before, or is the resume file. -/
theorem entryAt_open (hopen : open_ t root d name = (.ok s, t')) (names : List Name) (id : FileId)
    (hentry : t'.entryAt names = some (.file id)) :
    t.entryAt names = some (.file id) ∨
      names = t'.place s.resumePath ∧ t'.content id = [] := by
  obtain ⟨made, resume, hmade, hfile, rfl⟩ := open_eq hopen
  simp only [FileTree.makeDirectories] at hmade
  have hfurnished := (FileTree.makeDirectoriesWithin_spec hmade).1
  rcases FileTree.openFile_files hfile names id hentry with hold | ⟨hplace, hnil⟩
  · exact .inl (hfurnished.files names id hold)
  · refine .inr ⟨?_, hnil⟩
    rw [(FileTree.openFile_spec hfile).1.toKeeps.place_eq]
    exact hplace

theorem hasPiece_open (hopen : open_ t root d name = (.ok s, t'))
    (hempty : ∀ id, t.entryAt (t.place (Path.join root name)) ≠ some (.file id))
    (i : PieceIndex) : s.hasPiece i = false := by
  obtain ⟨hkeeps, hleads, -⟩ := open_spec hopen
  simp only [hasPiece]
  rw [completed_open hopen]
  rcases entryAt_open hopen _ _ hleads.entry with hold | ⟨-, hnil⟩
  · rw [hkeeps.place_eq, resumePath_open hopen] at hold
    exact absurd hold (hempty s.resume)
  · rw [hnil]
    exact bit_bitmapOf_nil _ _

/-- Opening brings no file of the torrent to its place. -/
theorem not_standsAt_open (hopen : open_ t root d name = (.ok s, t'))
    (hnodup : (placesOf t root name d).Nodup)
    (hempty : ∀ p ∈ placesOf t root name d, ∀ id, t.entryAt p ≠ some (.file id)) (file : Nat)
    (id : FileId) : ¬s.StandsAt t' file id := by
  have hhoused := housed_open hopen hnodup
  rintro ⟨path, hpath, hentry⟩
  rcases entryAt_open hopen _ _ hentry with hold | ⟨hplace, -⟩
  · refine hempty (t'.place path) ?_ id hold
    rw [← places_open hopen]
    exact List.mem_of_getElem? (getElem?_places hpath)
  · exact hhoused.place_ne_resume hpath hplace

end Torrent.Store
