import Torrent.Proofs.Files.Place

/-!
# Directories made and files opened

A directory that was made is there, and need not be made again
(`FileTree.makeDirectories_of_isDirectory`).  A file that was opened is found
under its path as long as names are only added (`FileTree.LeadsTo`), and opening
it again gives the same file and changes nothing (`FileTree.LeadsTo.openFile`).

What is opened is a new file, or one that was at that place before.  Files at
different places are different files (`FileTree.eq_of_entryAt`), and every one of
them is there (`FileTree.lt_size_of_entryAt`).
-/

namespace Torrent.FileTree

variable {t t' t'' : FileTree} {path : List Char} {names : List Name} {id : FileId}

/-! ## Directories -/

theorem isDirectory_iff :
    t.isDirectory path = true ↔ ∃ names, t.locate path = .ok (names, some .directory) := by
  simp only [isDirectory, find]
  cases hlocate : t.locate path with
  | error e => simp
  | ok located =>
      obtain ⟨names, found⟩ := located
      cases found with
      | none => simp
      | some entry =>
          cases entry with
          | directory => simp
          | file id =>
              dsimp only
              by_cases hslash : endsInSlash path
              · simp [hslash]
              · simp [hslash]

theorem Keeps.isDirectory (h : t.Keeps t') (hdirectory : t.isDirectory path = true) :
    t'.isDirectory path = true := by
  obtain ⟨names, hlocate⟩ := isDirectory_iff.1 hdirectory
  exact isDirectory_iff.2 ⟨names, h.locate hlocate⟩

/-- A tree with more directories. -/
structure Furnished (t t' : FileTree) : Prop extends Keeps t t' where
  contents : t'.contents = t.contents
  files : ∀ names id, t'.entryAt names = some (.file id) → t.entryAt names = some (.file id)

theorem Furnished.refl (t : FileTree) : t.Furnished t := ⟨.refl t, rfl, fun _ _ h => h⟩

theorem Furnished.trans (h : t.Furnished t') (h' : t'.Furnished t'') : t.Furnished t'' :=
  ⟨h.toKeeps.trans h'.toKeeps, h'.contents.trans h.contents,
    fun names id hid => h.files names id (h'.files names id hid)⟩

theorem Furnished.extends (h : t.Furnished t') : t.Extends t' := by
  refine ⟨h.toKeeps, fun id => ?_⟩
  simp only [content]
  rw [h.contents]

theorem furnished_addDirectory (t : FileTree) (names : List Name) :
    t.Furnished (t.addDirectory names) := by
  refine ⟨keeps_of_entries rfl rfl, rfl, fun ns id hid => ?_⟩
  rw [entryAt_of_entries rfl] at hid
  cases hold : t.entryAt ns with
  | some e =>
      rw [hold] at hid
      exact hid
  | none =>
      rw [hold] at hid
      simp at hid

/-- A new entry stands under its name. -/
theorem entryAt_new {e : Entry} (hnew : t'.entries = t.entries ++ [(names, e)])
    (h : t.entryAt names = none) : t'.entryAt names = some e := by
  have hne : names ≠ [] := by
    rintro rfl
    rw [entryAt_nil] at h
    cases h
  rw [entryAt_of_entries hnew, h]
  simp [hne]

/-- The name of a path that leads to nothing is free. -/
theorem entryAt_of_locate_none (h : t.locate path = .ok (names, none)) :
    t.entryAt names = none := by
  rcases (locate_eq h).2 with hfound | hfound
  · cases hfound
  · exact hfound.symm

theorem makeDirectory_spec (h : t.makeDirectory path = .ok t') :
    t.Furnished t' ∧ t'.isDirectory path = true := by
  simp only [makeDirectory] at h
  split at h
  next => cases h
  next => cases h
  next names hlocate =>
    cases h
    have hfurnished := furnished_addDirectory t names
    refine ⟨hfurnished, isDirectory_iff.2 ⟨names, ?_⟩⟩
    have hfree := entryAt_of_locate_none hlocate
    exact locate_add hfurnished.toKeeps (entryAt_new rfl hfree) hlocate

theorem ensureDirectory_spec (h : t.ensureDirectory path = .ok t') :
    t.Furnished t' ∧ t'.isDirectory path = true := by
  simp only [ensureDirectory] at h
  split at h
  next hmake =>
    cases h
    exact makeDirectory_spec hmake
  next =>
    split at h
    next hdirectory =>
      cases h
      exact ⟨.refl t, hdirectory⟩
    next => cases h

/-- Making directories makes nothing else, and without a failure the directory is there. -/
theorem makeDirectoriesWithin_spec {n : Nat} {result : Except IoError Unit}
    (h : t.makeDirectoriesWithin n path = (result, t')) :
    t.Furnished t' ∧ (result = .ok () → path = [] ∨ t'.isDirectory path = true) := by
  induction n generalizing path result t' with
  | zero =>
      simp only [makeDirectoriesWithin] at h
      split at h
      next hensure =>
        cases h
        obtain ⟨hfurnished, hdirectory⟩ := ensureDirectory_spec hensure
        exact ⟨hfurnished, fun _ => .inr hdirectory⟩
      next =>
        cases h
        exact ⟨.refl t, nofun⟩
  | succ n ih =>
      simp only [makeDirectoriesWithin] at h
      split at h
      next hnil =>
        cases h
        exact ⟨.refl t, fun _ => .inl hnil⟩
      next =>
        split at h
        next hmake =>
          cases h
          obtain ⟨hfurnished, hdirectory⟩ := makeDirectory_spec hmake
          exact ⟨hfurnished, fun _ => .inr hdirectory⟩
        next =>
          split at h
          next =>
            cases h
            exact ⟨.refl t, nofun⟩
          next parent =>
            split at h
            next hparent =>
              cases h
              exact ⟨(ih hparent).1, nofun⟩
            next made hparent =>
              have hmade := (ih hparent).1
              split at h
              next hensure =>
                cases h
                obtain ⟨hfurnished, hdirectory⟩ := ensureDirectory_spec hensure
                exact ⟨hmade.trans hfurnished, fun _ => .inr hdirectory⟩
              next =>
                cases h
                exact ⟨hmade, nofun⟩
        next =>
          split at h
          next hdirectory =>
            cases h
            exact ⟨.refl t, fun _ => .inr hdirectory⟩
          next =>
            cases h
            exact ⟨.refl t, nofun⟩

/-- Directories that are there are not made again. -/
theorem makeDirectories_of_isDirectory (h : path = [] ∨ t.isDirectory path = true) :
    t.makeDirectories path = (.ok (), t) := by
  simp only [makeDirectories, makeDirectoriesWithin]
  split
  next => rfl
  next hnil =>
    have hdirectory := h.resolve_left hnil
    obtain ⟨names, hlocate⟩ := isDirectory_iff.1 hdirectory
    have hthere : t.makeDirectory path = .error .exists_ := by
      simp only [makeDirectory]
      rw [hlocate]
    rw [hthere]
    dsimp only
    rw [if_pos hdirectory]

/-! ## Files -/

/-- A path leads to a file. -/
structure LeadsTo (t : FileTree) (path : List Char) (id : FileId) : Prop where
  locate : t.locate path = .ok (t.place path, some (.file id))
  slash : endsInSlash path = false

theorem LeadsTo.keeps (h : t.LeadsTo path id) (hkeeps : t.Keeps t') : t'.LeadsTo path id :=
  ⟨(hkeeps.place_eq path).symm ▸ hkeeps.locate h.locate, h.slash⟩

/-- Opening a file that is there changes nothing. -/
theorem LeadsTo.openFile (h : t.LeadsTo path id) : t.openFile path = .ok (id, t) := by
  simp only [FileTree.openFile]
  rw [h.locate]
  simp [h.slash]

theorem LeadsTo.readFile (h : t.LeadsTo path id) : t.readFile path = .ok (t.content id) := by
  simp only [FileTree.readFile, find]
  rw [h.locate]
  simp [h.slash]

/-- A file that can be read stands at its place. -/
theorem entryAt_of_readFile {bytes : Bytes} (h : t.readFile path = .ok bytes) :
    ∃ id, t.entryAt (t.place path) = some (.file id) := by
  simp only [FileTree.readFile, find] at h
  split at h
  next => cases h
  next => cases h
  next id hfind =>
    split at hfind
    next => cases hfind
    next => cases hfind
    next => cases hfind
    next names other hlocate =>
      obtain ⟨rfl, hfound | hfound⟩ := locate_eq hlocate
      · cases hfound
      · exact ⟨other, hfound.symm⟩

theorem LeadsTo.entry (h : t.LeadsTo path id) : t.entryAt (t.place path) = some (.file id) := by
  rcases (locate_eq h.locate).2 with hfound | hfound
  · cases hfound
  · exact hfound.symm

/-- A tree with a new file. -/
theorem extends_addFile (t : FileTree) (names : List Name) :
    t.Extends (t.addFile names []) := by
  refine ⟨keeps_of_entries rfl rfl, fun id => ?_⟩
  simp only [content, addFile, List.getD_eq_getElem?_getD]
  by_cases hid : id < t.contents.length
  · rw [List.getElem?_append_left hid]
  · have hle := Nat.le_of_not_lt hid
    rw [List.getElem?_append_right hle, List.getElem?_eq_none hle]
    cases id - t.contents.length <;> rfl

/-- What opening a file can do: it finds the file, or makes a new one at its place. -/
theorem openFile_spec (h : t.openFile path = .ok (id, t')) :
    t.Extends t' ∧ t'.LeadsTo path id ∧
      (t' = t ∨ id = t.contents.length ∧ t.entryAt (t.place path) = none ∧
        t' = t.addFile (t.place path) []) := by
  simp only [openFile] at h
  split at h
  next => cases h
  next names found hlocate =>
    have hnames := (locate_eq hlocate).1
    split at h
    next => cases h
    next hslash =>
      have hslash : endsInSlash path = false := by simpa using hslash
      split at h
      next => cases h
      next =>
        cases h
        exact ⟨.refl t, ⟨hnames ▸ hlocate, hslash⟩, .inl rfl⟩
      next =>
        simp only [Except.ok.injEq, Prod.mk.injEq] at h
        obtain ⟨rfl, rfl⟩ := h
        have hfree := entryAt_of_locate_none hlocate
        have hextends := extends_addFile t names
        refine ⟨hextends, ⟨?_, hslash⟩, .inr ⟨rfl, hnames ▸ hfree, by rw [hnames]⟩⟩
        rw [hextends.toKeeps.place_eq, ← hnames]
        exact locate_add hextends.toKeeps (entryAt_new rfl hfree) hlocate

/-- What is a file after a file was opened was one before, or is the new file, which is empty. -/
theorem openFile_files (h : t.openFile path = .ok (id, t')) (names : List Name) (other : FileId)
    (hother : t'.entryAt names = some (.file other)) :
    t.entryAt names = some (.file other) ∨ names = t.place path ∧ t'.content other = [] := by
  obtain ⟨-, -, rfl | ⟨rfl, -, rfl⟩⟩ := openFile_spec h
  · exact .inl hother
  · rw [entryAt_of_entries rfl] at hother
    cases hold : t.entryAt names with
    | some e =>
        rw [hold] at hother
        exact .inl hother
    | none =>
        rw [hold] at hother
        simp only [Option.none_or, ne_eq] at hother
        split at hother
        next hnew =>
          cases hother
          refine .inr ⟨hnew.2.symm, ?_⟩
          simp [content, addFile]
        next => cases hother

/-! ## Different files at different places -/

/-- The file at a place. -/
def fileAt? (t : FileTree) (names : List Name) : Option FileId :=
  match t.entryAt names with
  | some (.file id) => some id
  | _ => none

theorem fileAt?_eq_some_iff : t.fileAt? names = some id ↔ t.entryAt names = some (.file id) := by
  simp only [fileAt?]
  split
  next hentry => simp [hentry]
  next hno =>
    constructor
    · nofun
    · exact fun hentry => absurd hentry (hno id)

theorem mem_entries_of_entryAt (h : t.entryAt names = some (.file id)) :
    (names, .file id) ∈ t.entries := by
  simp only [entryAt] at h
  split at h
  next => cases h
  next =>
    obtain ⟨⟨found, e⟩, hfound, rfl⟩ := Option.map_eq_some_iff.1 h
    obtain rfl : found = names := by simpa using List.find?_some hfound
    exact List.mem_of_find?_eq_some hfound

/-- A file that a name leads to is there. -/
theorem lt_size_of_entryAt (h : t.entryAt names = some (.file id)) : id < t.contents.length :=
  t.bound id (List.mem_filterMap.2 ⟨_, mem_entries_of_entryAt h, rfl⟩)

/-- Different places are different files. -/
theorem eq_of_entryAt {other : List Name} (h : t.entryAt names = some (.file id))
    (hother : t.entryAt other = some (.file id)) : names = other := by
  obtain ⟨k, hk, hnames⟩ := List.mem_iff_getElem.1 (mem_entries_of_entryAt h)
  obtain ⟨j, hj, hnames'⟩ := List.mem_iff_getElem.1 (mem_entries_of_entryAt hother)
  have hapart := t.nodup
  simp only [filesOf, List.Nodup] at hapart
  rw [List.pairwise_filterMap, List.pairwise_iff_getElem] at hapart
  rcases Nat.lt_trichotomy k j with hlt | rfl | hlt
  · exact absurd rfl (hapart k j hk hj hlt id (by rw [hnames]; rfl) id (by rw [hnames']; rfl))
  · rw [hnames] at hnames'
    cases hnames'
    rfl
  · exact absurd rfl (hapart j k hj hk hlt id (by rw [hnames']; rfl) id (by rw [hnames]; rfl))

end Torrent.FileTree
