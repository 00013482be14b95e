import Torrent.Proofs.Store.Placement

/-!
# A store opened

Opening a store makes its directory and its resume file, and nothing else of its
own (`Store.open_spec`).  The store is settled (`Store.settled_open`), and it is
housed if its files are at different places (`Store.housed_open`).

What was opened once can be opened again at any later time: the same store comes
back, with the pieces that its resume file names by then (`Store.open_again`).
-/

namespace Torrent.Store

variable {s : Store} {t t' later : FileTree} {root name : List Char} {d : Descriptor}

/-- The places where a store puts its files, that of the resume file first. -/
def placesOf (t : FileTree) (root name : List Char) (d : Descriptor) : List (List Name) :=
  t.place (Path.join root name) ::
    d.files.map fun file => t.place (Path.join root file.path.toList)

/-- What opening leaves behind: the directory and the resume file. -/
theorem open_spec (hopen : open_ t root d name = (.ok s, t')) :
    t.Keeps t' ∧ t'.LeadsTo s.resumePath s.resume ∧
      (root = [] ∨ t'.isDirectory root = true) := by
  obtain ⟨made, resume, hmade, hfile, rfl⟩ := open_eq hopen
  simp only [FileTree.makeDirectories] at hmade
  obtain ⟨hfurnished, hdirectory⟩ := FileTree.makeDirectoriesWithin_spec hmade
  obtain ⟨hextends, hleads, -⟩ := FileTree.openFile_spec hfile
  refine ⟨hfurnished.toKeeps.trans hextends.toKeeps, hleads, ?_⟩
  rcases hdirectory rfl with hnil | hdirectory
  · exact .inl hnil
  · exact .inr (hextends.toKeeps.isDirectory hdirectory)

theorem places_open (hopen : open_ t root d name = (.ok s, t')) :
    s.places t' = placesOf t root name d := by
  have hplace : t'.place = t.place := funext (open_spec hopen).1.place_eq
  obtain ⟨-, -, -, -, rfl⟩ := open_eq hopen
  simp only [places, placesOf]
  rw [hplace, List.map_map]
  rfl

/-- A store begins with none of its files open. -/
theorem handles_open (hopen : open_ t root d name = (.ok s, t')) (later : FileTree) :
    s.Handles later := by
  obtain ⟨-, -, -, -, rfl⟩ := open_eq hopen
  intro slot hslot id hid
  obtain ⟨file, -, rfl⟩ := List.mem_map.1 hslot
  cases hid

theorem settled_open (hopen : open_ t root d name = (.ok s, t')) : s.Settled t' :=
  ⟨handles_open hopen t', (open_spec hopen).2.1.entry⟩

theorem housed_open (hopen : open_ t root d name = (.ok s, t'))
    (hnodup : (placesOf t root name d).Nodup) : s.Housed t' :=
  ⟨settled_open hopen, (places_open hopen).symm ▸ hnodup⟩

theorem resumePath_open (hopen : open_ t root d name = (.ok s, t')) :
    s.resumePath = Path.join root name := by
  obtain ⟨-, -, -, -, rfl⟩ := open_eq hopen
  rfl

/-- The bitmap of a store that is opened is that of its resume file. -/
theorem completed_open (hopen : open_ t root d name = (.ok s, t')) :
    s.completed = bitmapOf (t'.content s.resume) d.pieceCount := by
  obtain ⟨-, -, -, -, rfl⟩ := open_eq hopen
  rfl

/-- A store can be opened again when names were only added, and nothing has to be made for it. -/
theorem open_again (hopen : open_ t root d name = (.ok s, t')) (hkeeps : t'.Keeps later) :
    open_ later root d name =
      (.ok { s with completed := bitmapOf (later.content s.resume) d.pieceCount }, later) := by
  obtain ⟨-, hleads, hroot⟩ := open_spec hopen
  obtain ⟨-, resume, -, -, rfl⟩ := open_eq hopen
  have hdirectory : later.makeDirectories root = (.ok (), later) :=
    FileTree.makeDirectories_of_isDirectory (hroot.imp_right hkeeps.isDirectory)
  have hfile : later.openFile (Path.join root name) = .ok (resume, later) :=
    (hleads.keeps hkeeps).openFile
  simp only [open_]
  rw [hdirectory]
  dsimp only
  rw [hfile]

end Torrent.Store
