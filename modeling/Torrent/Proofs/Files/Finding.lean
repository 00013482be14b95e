import Torrent.Proofs.Files.Location
import Torrent.Proofs.Files.Opening

/-!
# What was found before

A path that leads to a file by now led to that file before, or was not found then
(`FileTree.readFile_of_leadsTo`).  Any other failure to find it would have stayed
(`FileTree.Keeps.locate_error`).

Where a file below a directory can be read, the directory is there
(`FileTree.isDirectory_of_readFile_join`).
-/

namespace Torrent.FileTree

variable {t t' : FileTree} {path root name : List Char} {names : List Name} {e : IoError}

/-! ## Failures that stay -/

/-- A name is refused for its text alone. -/
theorem step_eq_error {directory : List Name} {next : Name}
    (hstep : t.step directory next = .error e) (t' : FileTree) :
    t'.step directory next = .error e := by
  simp only [FileTree.step] at hstep ⊢
  by_cases hdot : next = ['.']
  · rw [if_pos hdot] at hstep
    cases hstep
  by_cases hback : next = ['.', '.']
  · rw [if_neg hdot, if_pos hback] at hstep
    cases hstep
  rw [if_neg hdot, if_neg hback] at hstep ⊢
  split at hstep
  next hlong =>
    rw [if_pos hlong]
    exact hstep
  next => cases hstep

namespace Keeps

theorem walk_error (h : t.Keeps t') {directory rest : List Name}
    (hwalk : t.walk directory rest = .error e) (he : e ≠ .notFound) :
    t'.walk directory rest = .error e := by
  induction rest generalizing directory with
  | nil => cases hwalk
  | cons next rest ih =>
      simp only [FileTree.walk] at hwalk ⊢
      split at hwalk
      next hstep =>
        rw [step_eq_error hstep]
        exact hwalk
      next =>
        cases hwalk
        exact absurd rfl he
      next hstep =>
        rw [h.step hstep]
        exact hwalk
      next hstep =>
        rw [h.step hstep]
        exact ih hwalk

/-- Only what was not found can be found later. -/
theorem locate_error (h : t.Keeps t') (hlocate : t.locate path = .error e) (he : e ≠ .notFound) :
    t'.locate path = .error e := by
  simp only [FileTree.locate] at hlocate ⊢
  rw [h.workingDirectory]
  split at hlocate
  next hzero =>
    rw [if_pos hzero]
    exact hlocate
  next hzero =>
    rw [if_neg hzero]
    split at hlocate
    next hnil =>
      rw [if_pos hnil]
      exact hlocate
    next hnil =>
      rw [if_neg hnil]
      split at hlocate
      next hlong =>
        rw [if_pos hlong]
        exact hlocate
      next hlong =>
        rw [if_neg hlong]
        split at hlocate
        next => cases hlocate
        next =>
          split at hlocate
          next hwalk =>
            rw [h.walk_error hwalk (by rintro rfl; cases hlocate; exact he rfl)]
            exact hlocate
          next directory hwalk =>
            rw [h.walk hwalk]
            exact step_eq_error hlocate t'

end Keeps

/-- A file found by now was there before, or its path was not found. -/
theorem readFile_of_leadsTo {id : FileId} (hkeeps : t.Keeps t') (hleads : t'.LeadsTo path id) :
    t.readFile path = .ok (t.content id) ∨ t.readFile path = .error .notFound := by
  have hslash := hleads.slash
  simp only [readFile, find]
  cases hlocate : t.locate path with
  | error e =>
      by_cases he : e = .notFound
      · subst he
        exact .inr rfl
      · have hlater := hkeeps.locate_error hlocate he
        rw [hleads.locate] at hlater
        cases hlater
  | ok located =>
      obtain ⟨names, found⟩ := located
      cases found with
      | none => exact .inr rfl
      | some entry =>
          have hlater := hkeeps.locate hlocate
          rw [hleads.locate] at hlater
          cases hlater
          simp [hslash]

/-! ## The directory of a file -/

theorem leadsTo_of_readFile {bytes : Bytes} (h : t.readFile path = .ok bytes) :
    ∃ id, t.LeadsTo path id ∧ t.content id = bytes := by
  simp only [readFile, find] at h
  split at h
  next => cases h
  next => cases h
  next id hfind =>
    cases h
    split at hfind
    next => cases hfind
    next => cases hfind
    next => cases hfind
    next names other hlocate =>
      split at hfind
      next => cases hfind
      next hslash =>
        cases hfind
        refine ⟨id, ⟨?_, by simpa using hslash⟩, rfl⟩
        rw [hlocate, (locate_eq hlocate).1]

theorem walk_append (directory front rest : List Name) :
    t.walk directory (front ++ rest) = t.walk directory front >>= fun between =>
      t.walk between rest := by
  induction front generalizing directory with
  | nil => rfl
  | cons next front ih =>
      simp only [List.cons_append, walk]
      split
      next => rfl
      next => rfl
      next => rfl
      next names _ => exact ih names

theorem exists_walk_of_append {directory front rest : List Name}
    (h : t.walk directory (front ++ rest) = .ok names) :
    ∃ between, t.walk directory front = .ok between ∧ t.walk between rest = .ok names := by
  rw [walk_append] at h
  cases hfront : t.walk directory front with
  | error e =>
      rw [hfront] at h
      cases h
  | ok between =>
      rw [hfront] at h
      exact ⟨between, rfl, h⟩

/-- Names that lead on lead to a directory. -/
theorem isDirectory_of_walk (hpath : IsPath path)
    (h : t.walk (t.origin path) (realNames path) = .ok names) : t.isDirectory path = true := by
  refine isDirectory_iff.2 ⟨names, locate_iff.2 ⟨hpath, ?_⟩⟩
  rcases List.eq_nil_or_concat (realNames path) with hnil | ⟨front, last, hfront⟩
  · rw [hnil] at h
    cases h
    exact .inl ⟨hnil, rfl, rfl⟩
  · rw [List.concat_eq_append] at hfront
    rw [hfront] at h
    obtain ⟨between, hwalk, hlast⟩ := exists_walk_of_append h
    refine .inr ⟨front, last, between, hfront, hwalk, ?_⟩
    simp only [walk] at hlast
    split at hlast
    next => cases hlast
    next => cases hlast
    next => cases hlast
    next hstep =>
      cases hlast
      exact hstep

theorem sizeOf_append (front rest : List Char) :
    sizeOf (front ++ rest) = sizeOf front + sizeOf rest := by
  simp only [sizeOf]
  rw [String.ofList_append, String.utf8ByteSize_append]

/-- A directory has the front of the paths below it as its path. -/
theorem isPath_of_join (hname : Path.isAbsolute name = false) (hroot : root ≠ [])
    (h : IsPath (Path.join root name)) : IsPath root := by
  obtain ⟨rest, hrest⟩ : ∃ rest, Path.join root name = root ++ rest := by
    simp only [Path.join]
    rw [if_neg (by simp [hname, hroot])]
    split
    · exact ⟨_, rfl⟩
    · exact ⟨_, rfl⟩
  rw [hrest] at h
  obtain ⟨hzero, -, hsize⟩ := h
  rw [sizeOf_append] at hsize
  exact ⟨fun hmem => hzero (List.mem_append_left _ hmem), hroot,
    Nat.le_trans (Nat.le_add_right _ _) hsize⟩

/-- Where a file below a directory can be read, the directory is there. -/
theorem isDirectory_of_readFile_join {bytes : Bytes} (hname : Path.isAbsolute name = false)
    (hsome : realNames name ≠ []) (h : t.readFile (Path.join root name) = .ok bytes) :
    root = [] ∨ t.isDirectory root = true := by
  by_cases hroot : root = []
  · exact .inl hroot
  obtain ⟨id, hleads, -⟩ := leadsTo_of_readFile h
  obtain ⟨hpath, hways⟩ := locate_iff.1 hleads.locate
  rw [realNames_join hname, origin_join hname] at hways
  obtain ⟨before, final, hbefore⟩ := List.eq_nil_or_concat (realNames name) |>.resolve_left hsome
  rw [List.concat_eq_append] at hbefore
  obtain ⟨hnil, -⟩ | ⟨front, last, directory, hfront, hwalk, -⟩ := hways
  · exact absurd (List.append_eq_nil_iff.1 hnil).2 hsome
  · rw [hbefore, ← List.append_assoc] at hfront
    obtain ⟨rfl, -⟩ := List.append_inj' hfront rfl
    obtain ⟨between, hdown, -⟩ := exists_walk_of_append hwalk
    exact .inr (isDirectory_of_walk (isPath_of_join hname hroot hpath) hdown)

/-! ## What is missing in a directory -/

theorem exists_walk_of_isDirectory (h : root = [] ∨ t.isDirectory root = true) :
    ∃ directory, t.walk (t.origin root) (realNames root) = .ok directory := by
  rcases h with rfl | h
  · exact ⟨_, rfl⟩
  · obtain ⟨names, hlocate⟩ := isDirectory_iff.1 h
    obtain ⟨-, ⟨hnil, -⟩ | ⟨front, last, directory, hfront, hwalk, hstep⟩⟩ := locate_iff.1 hlocate
    · rw [hnil]
      exact ⟨_, rfl⟩
    · refine ⟨names, ?_⟩
      rw [hfront, walk_append, hwalk]
      show t.walk directory [last] = _
      simp only [walk]
      rw [hstep]

theorem step_ne_notFound (directory : List Name) (next : Name) :
    t.step directory next ≠ .error .notFound := by
  simp only [step]
  repeat' split
  all_goals
    intro h
    cases h

theorem endsInSlash_join (root : List Char) (hname : name ≠ []) :
    endsInSlash (Path.join root name) = endsInSlash name := by
  have hlast : ∀ before : List Char, endsInSlash (before ++ name) = endsInSlash name := by
    intro before
    simp only [endsInSlash]
    rw [List.getLast?_append, List.getLast?_eq_some_getLast hname, Option.some_or]
  simp only [Path.join]
  repeat' split
  · rfl
  · exact hlast root
  · rw [List.append_cons]
    exact hlast (root ++ ['/'])

/-- In a directory that is there, a name can be looked up. -/
theorem locate_join_ne_notFound {last : Name} (hname : Path.isAbsolute name = false)
    (hlast : realNames name = [last]) (h : root = [] ∨ t.isDirectory root = true) :
    t.locate (Path.join root name) ≠ .error .notFound := by
  obtain ⟨directory, hwalk⟩ := exists_walk_of_isDirectory h
  have hnames : realNames (Path.join root name) = realNames root ++ [last] := by
    rw [realNames_join hname, hlast]
  have horigin : t.origin (Path.join root name) = t.origin root := origin_join hname
  simp only [locate]
  split
  next =>
    intro h
    cases h
  next =>
    split
    next hnil =>
      rw [hnil] at hnames
      exact absurd hnames.symm (List.append_ne_nil_of_right_ne_nil _ (List.cons_ne_nil last []))
    next =>
      split
      next =>
        intro h
        cases h
      next =>
        simp only [origin] at hwalk horigin
        rw [hnames, horigin, List.getLast?_concat, List.dropLast_concat]
        dsimp only
        rw [hwalk]
        exact step_ne_notFound directory last

/-- A file that is missing in a directory can be made there. -/
theorem openFile_of_notFound {last : Name} (hname : Path.isAbsolute name = false)
    (hlast : realNames name = [last]) (hslash : endsInSlash name = false)
    (h : root = [] ∨ t.isDirectory root = true)
    (hmissing : t.readFile (Path.join root name) = .error .notFound) :
    ∃ id t', t.openFile (Path.join root name) = .ok (id, t') := by
  have hfound := locate_join_ne_notFound hname hlast h
  have hne : name ≠ [] := by
    rintro rfl
    cases hlast
  rw [← endsInSlash_join root hne] at hslash
  simp only [readFile, find] at hmissing
  simp only [openFile]
  cases hlocate : t.locate (Path.join root name) with
  | error e =>
      rw [hlocate] at hmissing hfound
      cases hmissing
      exact absurd rfl hfound
  | ok located =>
      obtain ⟨names, found⟩ := located
      rw [hlocate] at hmissing
      dsimp only
      rw [if_neg (by simp [hslash])]
      cases found with
      | none => exact ⟨_, _, rfl⟩
      | some entry =>
          cases entry with
          | directory => cases hmissing
          | file id =>
              dsimp only at hmissing
              rw [if_neg (by simp [hslash])] at hmissing
              cases hmissing

end Torrent.FileTree
