import Torrent.FileTree

/-!
# Places of paths

A tree has no links, so where a path leads can be read off the path
(`FileTree.place`): the tree only says whether the way is there.  Two paths are
paths of one file exactly if they lead to one place.

Names are only added while a torrent is downloaded.  `FileTree.Keeps` is this
order on trees, and along it a path that was found is found again
(`FileTree.Keeps.locate`).
-/

namespace Torrent.FileTree

variable {t t' t'' : FileTree} {path : List Char} {names : List Name} {found : Option Entry}

/-! ## Where a path leads -/

/-- Where a name leads from a directory. -/
def follow (directory : List Name) (name : Name) : List Name :=
  if name = ['.'] then directory
  else if name = ['.', '.'] then directory.dropLast
  else directory ++ [name]

/-- Where a path starts. -/
def origin (t : FileTree) (path : List Char) : List Name :=
  if Path.isAbsolute path then [] else t.workingDirectory

/-- Where a path leads. -/
def place (t : FileTree) (path : List Char) : List Name :=
  (realNames path).foldl follow (t.origin path)

/-- Whether a path can be followed as far as its text matters. -/
def IsPath (path : List Char) : Prop :=
  '\x00' ∉ path ∧ path ≠ [] ∧ sizeOf path ≤ longestPath

theorem step_iff {directory : List Name} {name : Name} :
    t.step directory name = .ok (names, found) ↔ names = follow directory name ∧
      ((name = ['.'] ∨ name = ['.', '.']) ∧ found = some .directory ∨
        (name ≠ ['.'] ∧ name ≠ ['.', '.']) ∧ sizeOf name ≤ longestName ∧
          found = t.entryAt names) := by
  simp only [step, follow]
  by_cases hdot : name = ['.']
  · simp [hdot, eq_comm]
  · by_cases hback : name = ['.', '.']
    · simp [hback, eq_comm]
    · by_cases hlong : longestName < sizeOf name
      · simp [hdot, hback, hlong, Nat.not_le.2 hlong]
      · simp only [hdot, hback, hlong, if_false, Except.ok.injEq, Prod.mk.injEq, ne_eq,
          not_false_eq_true, and_self, true_and, or_self, false_and, false_or,
          Nat.le_of_not_lt hlong]
        constructor
        · rintro ⟨rfl, rfl⟩
          exact ⟨rfl, rfl⟩
        · rintro ⟨rfl, rfl⟩
          exact ⟨rfl, rfl⟩

theorem locate_iff : t.locate path = .ok (names, found) ↔ IsPath path ∧
    (realNames path = [] ∧ names = t.origin path ∧ found = some .directory ∨
      ∃ front last directory, realNames path = front ++ [last] ∧
        t.walk (t.origin path) front = .ok directory ∧
        t.step directory last = .ok (names, found)) := by
  simp only [locate, IsPath]
  by_cases hzero : '\x00' ∈ path
  · simp [hzero]
  by_cases hnil : path = []
  · simp [hnil]
  by_cases hlong : longestPath < sizeOf path
  · simp [hzero, hnil, hlong, Nat.not_le.2 hlong]
  rw [if_neg hzero, if_neg hnil, if_neg hlong]
  have hpath : '\x00' ∉ path ∧ path ≠ [] ∧ sizeOf path ≤ longestPath :=
    ⟨hzero, hnil, Nat.le_of_not_lt hlong⟩
  have horigin : (if Path.isAbsolute path then [] else t.workingDirectory) = t.origin path := rfl
  rw [horigin]
  cases hlast : (realNames path).getLast? with
  | none =>
      have hempty := List.getLast?_eq_none_iff.1 hlast
      constructor
      · intro h
        cases h
        exact ⟨hpath, .inl ⟨hempty, rfl, rfl⟩⟩
      · rintro ⟨-, ⟨-, rfl, rfl⟩ | ⟨front, last, directory, hfront, -⟩⟩
        · rfl
        · rw [hempty] at hfront
          exact absurd hfront (by simp)
  | some last =>
      obtain ⟨front, hfront⟩ := List.getLast?_eq_some_iff.1 hlast
      rw [hfront, List.dropLast_concat]
      constructor
      · intro h
        cases hwalk : t.walk (t.origin path) front with
        | error e =>
            rw [hwalk] at h
            cases h
        | ok directory =>
            rw [hwalk] at h
            exact ⟨hpath, .inr ⟨front, last, directory, rfl, hwalk, h⟩⟩
      · rintro ⟨-, ⟨hempty, -⟩ | ⟨front', last', directory, heq, hwalk, hstep⟩⟩
        · exact absurd hempty (by simp)
        · obtain ⟨rfl, hcons⟩ := List.append_inj' heq rfl
          obtain rfl : last = last' := by simpa using hcons
          rw [hwalk]
          exact hstep

/-- The names of a way through directories lead where they say. -/
theorem walk_eq {directory rest : List Name} (h : t.walk directory rest = .ok names) :
    names = rest.foldl follow directory := by
  induction rest generalizing directory with
  | nil =>
      cases h
      rfl
  | cons name rest ih =>
      simp only [walk] at h
      split at h
      next => cases h
      next => cases h
      next => cases h
      next entered hstep =>
        rw [List.foldl_cons, ← (step_iff.1 hstep).1]
        exact ih h

/-- A path that can be followed leads to its place, and what is there is a directory or what stands
there. -/
theorem locate_eq (h : t.locate path = .ok (names, found)) :
    names = t.place path ∧ (found = some .directory ∨ found = t.entryAt names) := by
  simp only [place]
  obtain ⟨-, ⟨hempty, rfl, rfl⟩ | ⟨front, last, directory, hfront, hwalk, hstep⟩⟩ := locate_iff.1 h
  · rw [hempty]
    exact ⟨rfl, .inl rfl⟩
  · obtain ⟨rfl, hfound⟩ := step_iff.1 hstep
    rw [hfront, List.foldl_append, walk_eq hwalk]
    refine ⟨rfl, ?_⟩
    rcases hfound with ⟨-, hdirectory⟩ | ⟨-, -, hentry⟩
    · exact .inl hdirectory
    · exact .inr (walk_eq hwalk ▸ hentry)

/-! ## Trees with more names -/

/-- A tree in which every name still stands for what it stood for. -/
structure Keeps (t t' : FileTree) : Prop where
  workingDirectory : t'.workingDirectory = t.workingDirectory
  entries : ∀ names e, t.entryAt names = some e → t'.entryAt names = some e

/-- A tree with more names and more files, and the old files as they were. -/
structure Extends (t t' : FileTree) : Prop extends Keeps t t' where
  content : ∀ id, t'.content id = t.content id

theorem Keeps.refl (t : FileTree) : t.Keeps t := ⟨rfl, fun _ _ h => h⟩

theorem Keeps.trans (h : t.Keeps t') (h' : t'.Keeps t'') : t.Keeps t'' :=
  ⟨h'.workingDirectory.trans h.workingDirectory,
    fun names e he => h'.entries names e (h.entries names e he)⟩

theorem Extends.refl (t : FileTree) : t.Extends t := ⟨.refl t, fun _ => rfl⟩

theorem Extends.trans (h : t.Extends t') (h' : t'.Extends t'') : t.Extends t'' :=
  ⟨h.toKeeps.trans h'.toKeeps, fun id => (h'.content id).trans (h.content id)⟩

namespace Keeps

theorem origin_eq (h : t.Keeps t') (path : List Char) : t'.origin path = t.origin path := by
  simp only [origin]
  rw [h.workingDirectory]

theorem place_eq (h : t.Keeps t') (path : List Char) : t'.place path = t.place path := by
  simp only [place]
  rw [h.origin_eq]

theorem step (h : t.Keeps t') {directory : List Name} {name : Name} {e : Entry}
    (hstep : t.step directory name = .ok (names, some e)) :
    t'.step directory name = .ok (names, some e) := by
  rw [step_iff] at hstep ⊢
  obtain ⟨hnames, hdirectory | ⟨hname, hsize, hentry⟩⟩ := hstep
  · exact ⟨hnames, .inl hdirectory⟩
  · exact ⟨hnames, .inr ⟨hname, hsize, (h.entries names e hentry.symm).symm⟩⟩

theorem walk (h : t.Keeps t') {directory rest : List Name}
    (hwalk : t.walk directory rest = .ok names) : t'.walk directory rest = .ok names := by
  induction rest generalizing directory with
  | nil => exact hwalk
  | cons name rest ih =>
      simp only [FileTree.walk] at hwalk ⊢
      split at hwalk
      next => cases hwalk
      next => cases hwalk
      next => cases hwalk
      next entered hstep =>
        rw [h.step hstep]
        exact ih hwalk

/-- What a path was found to lead to, it leads to later. -/
theorem locate (h : t.Keeps t') {e : Entry} (hlocate : t.locate path = .ok (names, some e)) :
    t'.locate path = .ok (names, some e) := by
  rw [locate_iff, h.origin_eq]
  obtain ⟨hpath, hempty | ⟨front, last, directory, hfront, hwalk, hstep⟩⟩ := locate_iff.1 hlocate
  · exact ⟨hpath, .inl hempty⟩
  · exact ⟨hpath, .inr ⟨front, last, directory, hfront, h.walk hwalk, h.step hstep⟩⟩

end Keeps

/-! ## New entries -/

theorem entryAt_nil (t : FileTree) : t.entryAt [] = some .directory := rfl

/-- A tree with only a working directory has no files. -/
theorem entryAt_empty_ne (workingDirectory names : List Name) (id : FileId) :
    (empty workingDirectory).entryAt names ≠ some (.file id) := by
  intro h
  simp only [entryAt, empty] at h
  split at h
  · cases h
  · obtain ⟨entry, hfound, hfile⟩ := Option.map_eq_some_iff.1 h
    obtain ⟨k, -, rfl⟩ := List.mem_map.1 (List.mem_of_find?_eq_some hfound)
    cases hfile

/-- What stands in a tree with one entry more. -/
theorem entryAt_of_entries {new : List Name} {e : Entry}
    (h : t'.entries = t.entries ++ [(new, e)]) (names : List Name) :
    t'.entryAt names =
      (t.entryAt names).or (if names ≠ [] ∧ new = names then some e else none) := by
  simp only [entryAt]
  rw [h]
  by_cases hnil : names = []
  · simp [hnil]
  · rw [if_neg hnil, if_neg hnil]
    simp only [List.find?_append, Option.map_or, hnil, ne_eq, not_false_eq_true, true_and]
    congr 1
    by_cases hnew : new = names
    · simp [hnew]
    · simp [hnew]

theorem keeps_of_entries {new : List Name} {e : Entry}
    (h : t'.entries = t.entries ++ [(new, e)]) (hhere : t'.workingDirectory = t.workingDirectory) :
    t.Keeps t' := by
  refine ⟨hhere, fun names found hfound => ?_⟩
  rw [entryAt_of_entries h, hfound]
  rfl

/-- A path whose name was free leads to the new entry. -/
theorem locate_add {e : Entry} (hkeeps : t.Keeps t') (hnew : t'.entryAt names = some e)
    (h : t.locate path = .ok (names, none)) : t'.locate path = .ok (names, some e) := by
  rw [locate_iff, hkeeps.origin_eq]
  obtain ⟨hpath, ⟨-, -, hfound⟩ | ⟨front, last, directory, hfront, hwalk, hstep⟩⟩ := locate_iff.1 h
  · cases hfound
  · refine ⟨hpath, .inr ⟨front, last, directory, hfront, hkeeps.walk hwalk, ?_⟩⟩
    rw [step_iff] at hstep ⊢
    obtain ⟨hnames, ⟨-, hfound⟩ | ⟨hname, hsize, -⟩⟩ := hstep
    · cases hfound
    · exact ⟨hnames, .inr ⟨hname, hsize, hnew.symm⟩⟩

end Torrent.FileTree
