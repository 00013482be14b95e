import Torrent.Descriptor.Basic
import Torrent.Proofs.Files.Place

/-!
# Locations below a directory

A path that stays below the directory it is joined to leads to that directory and
from there down through its names (`FileTree.place_join`).  Empty names and single
points are no part of the way (`FileTree.way`), so different spellings are one
location exactly if they have the same names.

A description that is accepted has only such paths
(`Descriptor.isContained_of_check`).
-/

namespace Torrent

namespace Path

variable {path : List Char}

theorem names_ne_nil (path : List Char) : names path ≠ [] := by
  cases path with
  | nil => exact List.cons_ne_nil _ _
  | cons c cs =>
      simp only [names]
      split
      next => exact List.cons_ne_nil _ _
      next =>
        cases names cs with
        | nil => exact List.cons_ne_nil _ _
        | cons name rest => exact List.cons_ne_nil _ _

/-- The names on both sides of a slash. -/
theorem names_append_slash (base path : List Char) :
    names (base ++ '/' :: path) = names base ++ names path := by
  induction base with
  | nil => rfl
  | cons c cs ih =>
      simp only [List.cons_append, names]
      rw [ih]
      split
      next => rfl
      next =>
        cases hnames : names cs with
        | nil => exact absurd hnames (names_ne_nil cs)
        | cons name rest => rfl

theorem mem_steps {step : Step} (h : step ∈ (names path).filterMap laterStep?) :
    step ∈ steps path := by
  simp only [steps]
  split
  next => exact List.mem_cons_of_mem _ h
  next =>
    split
    next => exact List.mem_cons_of_mem _ h
    next => exact h

/-- No step of a contained path leads out of its directory. -/
theorem isContained_step (h : isContained path = true) {step : Step} (hstep : step ∈ steps path) :
    step ≠ .root ∧ step ≠ .back := by
  simp only [isContained, Bool.and_eq_true, List.all_eq_true] at h
  have hinside := h.2 step hstep
  constructor
  · rintro rfl
    cases hinside
  · rintro rfl
    cases hinside

theorem isAbsolute_of_isContained (h : isContained path = true) : isAbsolute path = false := by
  refine Bool.of_not_eq_true fun habsolute => ?_
  have hroot : Step.root ∈ steps path := by
    simp only [steps]
    rw [if_pos habsolute]
    exact List.mem_cons_self ..
  exact (isContained_step h hroot).1 rfl

theorem ne_back_of_isContained (h : isContained path = true) {name : List Char}
    (hname : name ∈ names path) : name ≠ ['.', '.'] := by
  rintro rfl
  have hback : Step.back ∈ (names path).filterMap laterStep? :=
    List.mem_filterMap.2 ⟨_, hname, rfl⟩
  exact (isContained_step h (mem_steps hback)).2 rfl

end Path

namespace FileTree

variable {t : FileTree} {root path : List Char}

/-- The names that a path goes down through. -/
def way (path : List Char) : List Name := (realNames path).filter (· ≠ ['.'])

/-- The names of a way are names of entries. -/
theorem of_mem_way (h : Path.isContained path = true) {name : Name} (hname : name ∈ way path) :
    name ≠ [] ∧ name ≠ ['.'] ∧ name ≠ ['.', '.'] := by
  simp only [way, realNames, List.mem_filter, decide_eq_true_eq] at hname
  exact ⟨hname.1.2, hname.2, Path.ne_back_of_isContained h hname.1.1⟩

theorem realNames_append_slash (base path : List Char) :
    realNames (base ++ '/' :: path) = realNames base ++ realNames path := by
  simp only [realNames]
  rw [Path.names_append_slash, List.filter_append]

/-- A path below a directory has the names of both. -/
theorem realNames_join (h : Path.isAbsolute path = false) :
    realNames (Path.join root path) = realNames root ++ realNames path := by
  simp only [Path.join]
  split
  next hplain =>
    rcases hplain with habsolute | rfl
    · rw [h] at habsolute
      cases habsolute
    · rfl
  next =>
    split
    next hlast =>
      obtain ⟨front, rfl⟩ := List.getLast?_eq_some_iff.1 hlast
      rw [List.append_assoc, List.singleton_append, realNames_append_slash,
        realNames_append_slash front []]
      exact congrArg (· ++ realNames path) (List.append_nil _).symm
    next => exact realNames_append_slash root path

theorem origin_join (h : Path.isAbsolute path = false) :
    t.origin (Path.join root path) = t.origin root := by
  have hstart : Path.isAbsolute (Path.join root path) = Path.isAbsolute root := by
    simp only [Path.join]
    rw [h]
    cases root with
    | nil => exact h
    | cons c cs =>
        simp only [Bool.false_eq_true, List.cons_ne_nil, or_self, if_false]
        split <;> rfl
  simp only [origin]
  rw [hstart]

/-- Names without a step back lead down, whatever points are between them. -/
theorem foldl_follow {names : List Name} (h : ∀ name ∈ names, name ≠ ['.', '.'])
    (directory : List Name) :
    names.foldl follow directory = directory ++ names.filter (· ≠ ['.']) := by
  induction names generalizing directory with
  | nil => exact (List.append_nil _).symm
  | cons name rest ih =>
      rw [List.foldl_cons, ih fun other hother => h other (List.mem_cons_of_mem _ hother)]
      have hback := h name (List.mem_cons_self ..)
      by_cases hdot : name = ['.']
      · simp [follow, hdot]
      · simp [follow, hdot, hback]

/-- A contained path leads to its directory and from there down its way. -/
theorem place_join (h : Path.isContained path = true) :
    t.place (Path.join root path) = t.place root ++ way path := by
  have habsolute := Path.isAbsolute_of_isContained h
  simp only [place, way]
  rw [origin_join habsolute, realNames_join habsolute, List.foldl_append]
  refine foldl_follow (fun name hname => ?_) _
  exact Path.ne_back_of_isContained h (List.mem_filter.1 hname).1

end FileTree

/-- A description that is accepted has only paths that stay below their directory. -/
theorem Descriptor.isContained_of_check {d : Descriptor} (h : d.check = .ok ()) :
    ∀ file ∈ d.files, Path.isContained file.path.toList = true := by
  unfold check at h
  dsimp only at h
  repeat
    split at h
    next => cases h
  next hnone =>
    intro file hfile
    simpa using List.find?_eq_none.1 hnone file hfile

end Torrent
