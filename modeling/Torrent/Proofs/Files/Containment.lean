import Mathlib.Data.List.Basic
import Torrent.Proofs.Files.Location

/-!
# Paths that stay below a directory

A path is followed step by step (`Path.resolve`).  Only a step back or one from the
root leads out of a directory, and a contained path has neither: it is a relative path
with a step at all and without a step back (`Path.isContained_iff`).  On its text this
means that it does not begin with a slash, is not empty, and has no two points alone
between its slashes (`Path.isContained_iff_text`).

The steps of a path below a directory are those of the directory and then its own
(`Path.steps_join`).  So following a contained path from its directory stays below it
after every step.
-/

namespace Torrent

namespace Path

variable {path root : List Char} {step : Step}

/-- Where a step leads from a directory. -/
def Step.leads (directory : List Name) : Step → List Name
  | .root => []
  | .stay => directory
  | .back => directory.dropLast
  | .down name => directory ++ [name]

/-- Where steps lead from a directory, one after the other. -/
def resolve (start : List Name) (steps : List Step) : List Name := steps.foldl Step.leads start

/-! ## The steps of a path -/

/-- The step that only a path's beginning can be. -/
def firstSteps (path : List Char) : List Step :=
  if isAbsolute path then [.root]
  else if (names path).head? = some ['.'] then [.stay]
  else []

theorem steps_eq (path : List Char) :
    steps path = firstSteps path ++ (names path).filterMap laterStep? := by
  simp only [steps, firstSteps]
  split
  next => rfl
  next =>
    split
    next => rfl
    next => rfl

/-- A step that is not the first leads back or down. -/
theorem laterStep?_cases {name : List Char} (h : laterStep? name = some step) :
    name = ['.', '.'] ∧ step = .back ∨ step = .down name := by
  simp only [laterStep?] at h
  split at h
  next => cases h
  next =>
    split at h
    next hback => exact .inl ⟨hback, (Option.some.inj h).symm⟩
    next => exact .inr (Option.some.inj h).symm

theorem mem_steps_iff : step ∈ steps path ↔
    step ∈ firstSteps path ∨ ∃ name ∈ names path, laterStep? name = some step := by
  rw [steps_eq, List.mem_append, List.mem_filterMap]

/-- Only an absolute path starts at the root, and it does so first. -/
theorem root_mem_steps_iff : Step.root ∈ steps path ↔ isAbsolute path = true := by
  rw [mem_steps_iff]
  constructor
  · rintro (hfirst | ⟨name, -, hlater⟩)
    · simp only [firstSteps] at hfirst
      split at hfirst
      next habsolute => exact habsolute
      next => split at hfirst <;> simp at hfirst
    · obtain ⟨-, hback⟩ | hdown := laterStep?_cases hlater
      · cases hback
      · cases hdown
  · intro habsolute
    exact .inl (by simp [firstSteps, habsolute])

/-- A path has a step back exactly if two points are one of its names. -/
theorem back_mem_steps_iff : Step.back ∈ steps path ↔ ['.', '.'] ∈ names path := by
  rw [mem_steps_iff]
  constructor
  · rintro (hfirst | ⟨name, hname, hlater⟩)
    · simp only [firstSteps] at hfirst
      split at hfirst
      next => simp at hfirst
      next => split at hfirst <;> simp at hfirst
    · obtain ⟨rfl, -⟩ | hdown := laterStep?_cases hlater
      · exact hname
      · cases hdown
  · intro hname
    exact .inr ⟨_, hname, rfl⟩

/-- Only the empty path has no step. -/
theorem steps_eq_nil_iff : steps path = [] ↔ path = [] := by
  refine ⟨fun h => ?_, fun h => h ▸ rfl⟩
  rw [steps_eq, List.append_eq_nil_iff] at h
  obtain ⟨hfirst, hlater⟩ := h
  cases path with
  | nil => rfl
  | cons c cs =>
      simp only [firstSteps] at hfirst
      split at hfirst
      next => cases hfirst
      next habsolute =>
        split at hfirst
        next => cases hfirst
        next hpoint =>
          -- the first name is not empty, so it is a step
          have hslash : c ≠ '/' := by
            rintro rfl
            exact habsolute rfl
          obtain ⟨name, rest, hnames⟩ := List.exists_cons_of_ne_nil (names_ne_nil cs)
          simp only [names, if_neg hslash, hnames, pushChar] at hpoint hlater
          have hstep := List.filterMap_eq_nil_iff.1 hlater (c :: name) (List.mem_cons_self ..)
          simp only [laterStep?] at hstep
          split at hstep
          next hnone =>
            obtain hnil | hdot := hnone
            · cases hnil
            · exact absurd (congrArg some hdot) hpoint
          next => split at hstep <;> cases hstep

/-- A contained path is relative, has a step and has no step back. -/
theorem isContained_iff : isContained path = true ↔
    isAbsolute path = false ∧ steps path ≠ [] ∧ Step.back ∉ steps path := by
  constructor
  · intro h
    refine ⟨isAbsolute_of_isContained h, ?_, fun hback => (isContained_step h hback).2 rfl⟩
    rintro hnil
    simp [isContained, hnil] at h
  · rintro ⟨habsolute, hsome, hback⟩
    simp only [isContained, Bool.and_eq_true, List.all_eq_true]
    refine ⟨by simpa using hsome, fun step hstep => ?_⟩
    cases step with
    | root =>
        rw [root_mem_steps_iff, habsolute] at hstep
        cases hstep
    | back => exact absurd hstep hback
    | stay => rfl
    | down name => rfl

/-- The names of a path are what its slashes leave of it. -/
theorem names_eq_splitOn (path : List Char) : names path = path.splitOn '/' := by
  induction path with
  | nil => rfl
  | cons c cs ih =>
      rw [names, List.splitOn_cons_eq_if_modifyHead, ← ih]
      by_cases hslash : c = '/'
      · simp [hslash]
      · obtain ⟨name, rest, hnames⟩ := List.exists_cons_of_ne_nil (names_ne_nil cs)
        simp [hslash, hnames, pushChar]

theorem isContained_iff_text : isContained path = true ↔
    path.head? ≠ some '/' ∧ path ≠ [] ∧ ['.', '.'] ∉ path.splitOn '/' := by
  rw [isContained_iff, ne_eq, steps_eq_nil_iff, back_mem_steps_iff, names_eq_splitOn, isAbsolute]
  simp

/-! ## Paths below a directory -/

/-- The steps of what a slash parts: those in front of it, and the later ones behind it. -/
theorem steps_append_slash (front path : List Char) :
    steps (front ++ '/' :: path) =
      steps (front ++ ['/']) ++ (names path).filterMap laterStep? := by
  have hstart : firstSteps (front ++ '/' :: path) = firstSteps (front ++ ['/']) := by
    have habsolute : isAbsolute (front ++ '/' :: path) = isAbsolute (front ++ ['/']) := by
      cases front <;> rfl
    obtain ⟨name, rest, hnames⟩ := List.exists_cons_of_ne_nil (names_ne_nil front)
    simp only [firstSteps, habsolute, names_append_slash, hnames, List.cons_append, List.head?_cons]
  have hlast : (names []).filterMap laterStep? = [] := rfl
  rw [steps_eq, steps_eq, hstart, names_append_slash, names_append_slash front [],
    List.filterMap_append, List.filterMap_append, hlast, List.append_nil, List.append_assoc]

/-- A slash at the end is no step. -/
theorem steps_concat_slash {front : List Char} (h : front ≠ []) :
    steps (front ++ ['/']) = steps front := by
  have habsolute : isAbsolute (front ++ ['/']) = isAbsolute front := by
    cases front with
    | nil => exact absurd rfl h
    | cons c cs => rfl
  obtain ⟨name, rest, hnames⟩ := List.exists_cons_of_ne_nil (names_ne_nil front)
  have hlast : (names []).filterMap laterStep? = [] := rfl
  rw [steps_eq, steps_eq, names_append_slash, List.filterMap_append, hlast, List.append_nil]
  simp only [firstSteps, habsolute, names_append_slash, hnames, List.cons_append, List.head?_cons]

/-- The steps of a path below a directory are those of the directory, and then its own. -/
theorem steps_join (root : List Char) (h : isAbsolute path = false) :
    ∃ rest, steps (join root path) = steps root ++ rest ∧ ∀ step ∈ rest, step ∈ steps path := by
  have hlater : ∀ step ∈ (names path).filterMap laterStep?, step ∈ steps path :=
    fun step hstep => mem_steps hstep
  simp only [join]
  split
  next hplain =>
    obtain habsolute | rfl := hplain
    · rw [h] at habsolute
      cases habsolute
    · exact ⟨steps path, rfl, fun _ hstep => hstep⟩
  next hplain =>
    split
    next hlast =>
      obtain ⟨front, rfl⟩ := List.getLast?_eq_some_iff.1 hlast
      refine ⟨_, ?_, hlater⟩
      rw [List.append_assoc]
      exact steps_append_slash front path
    next =>
      refine ⟨_, ?_, hlater⟩
      rw [steps_append_slash, steps_concat_slash fun hnil => hplain (.inr hnil)]

/-- Steps that lead neither to the root nor back stay below where they begin. -/
theorem start_prefix_resolve {rest : List Step} (h : ∀ step ∈ rest, step ≠ .root ∧ step ≠ .back)
    (directory : List Name) : directory <+: resolve directory rest := by
  induction rest generalizing directory with
  | nil => exact List.prefix_refl directory
  | cons step rest ih =>
      have hrest := ih (fun other hother => h other (List.mem_cons_of_mem _ hother))
        (step.leads directory)
      have hstep := h step (List.mem_cons_self ..)
      refine List.IsPrefix.trans ?_ hrest
      cases step with
      | root => exact absurd rfl hstep.1
      | back => exact absurd rfl hstep.2
      | stay => exact List.prefix_refl directory
      | down name => exact List.prefix_append directory [name]

theorem resolve_append (start : List Name) (front rest : List Step) :
    resolve start (front ++ rest) = resolve (resolve start front) rest :=
  List.foldl_append

/-- A contained path stays below its directory after every step. -/
theorem resolve_join (h : isContained path = true) (start : List Name) {front : List Step}
    (hfront : front <+: steps (join root path)) (hroot : steps root <+: front) :
    resolve start (steps root) <+: resolve start front := by
  obtain ⟨rest, hjoin, hrest⟩ := steps_join root (isAbsolute_of_isContained h)
  obtain ⟨taken, rfl⟩ := hroot
  rw [hjoin, List.prefix_append_right_inj] at hfront
  rw [resolve_append]
  exact start_prefix_resolve
    (fun step hstep => isContained_step h (hrest step (hfront.subset hstep))) _

end Path

namespace FileTree

/-- A name that is followed is a step that is taken. -/
theorem follow_eq {name : Name} (hname : name ≠ []) (directory : List Name) :
    follow directory name =
      (Path.laterStep? name).elim directory (Path.Step.leads directory) := by
  simp only [follow, Path.laterStep?, hname, false_or]
  by_cases hdot : name = ['.']
  · simp [hdot]
  · by_cases hback : name = ['.', '.']
    · simp [hback, Path.Step.leads]
    · simp [hdot, hback, Path.Step.leads]

theorem foldl_follow_eq_resolve (names directory : List Name) :
    (names.filter (· ≠ [])).foldl follow directory =
      Path.resolve directory (names.filterMap Path.laterStep?) := by
  induction names generalizing directory with
  | nil => rfl
  | cons name rest ih =>
      by_cases hnil : name = []
      · subst hnil
        exact ih directory
      · rw [List.filter_cons_of_pos (by simpa using hnil), List.foldl_cons, ih, follow_eq hnil]
        cases hstep : Path.laterStep? name with
        | none =>
            rw [List.filterMap_cons_none hstep]
            rfl
        | some step =>
            rw [List.filterMap_cons_some hstep]
            rfl

/-- Where a path leads in a tree is where its steps lead. -/
theorem place_eq_resolve (t : FileTree) (path : List Char) :
    t.place path = Path.resolve t.workingDirectory (Path.steps path) := by
  have horigin : t.origin path = Path.resolve t.workingDirectory (Path.firstSteps path) := by
    simp only [origin, Path.firstSteps]
    split
    next => rfl
    next => split <;> rfl
  rw [place, realNames, horigin, foldl_follow_eq_resolve, Path.steps_eq, Path.resolve_append]

end FileTree

/-- The check of a path accepts exactly the relative paths that have a step and no step back: those
that do not begin with a slash, are not empty, and have no two points alone between their slashes.
So if a description is accepted, each of its paths is followed from below any directory as the steps
of the directory and then its own, stays below the directory after every one of them, and that is
where it leads in a tree. -/
theorem Path.contained_paths :
    (∀ path : List Char, isContained path = true ↔
      isAbsolute path = false ∧ steps path ≠ [] ∧ Step.back ∉ steps path) ∧
    (∀ path : List Char, isContained path = true ↔
      path.head? ≠ some '/' ∧ path ≠ [] ∧ ['.', '.'] ∉ path.splitOn '/') ∧
    ∀ d : Descriptor, d.check = .ok () → ∀ file ∈ d.files, ∀ root : List Char,
      let joined := join root file.path.toList
      steps root <+: steps joined ∧
      (∀ start front, front <+: steps joined → steps root <+: front →
        resolve start (steps root) <+: resolve start front) ∧
      ∀ t : FileTree, t.place joined = resolve t.workingDirectory (steps joined) := by
  refine ⟨fun path => isContained_iff, fun path => isContained_iff_text, ?_⟩
  intro d hcheck file hfile root joined
  have hcontained := d.isContained_of_check hcheck file hfile
  obtain ⟨rest, hjoin, -⟩ := steps_join root (isAbsolute_of_isContained hcontained)
  refine ⟨⟨rest, hjoin.symm⟩, fun start front => resolve_join hcontained start,
    fun t => t.place_eq_resolve joined⟩

/-- A path with points and empty names in it, followed through two directories from below one that
is itself reached by a step back. -/
theorem Path.contained_paths_winding :
    let d : Descriptor := ⟨⟨.zero 20⟩, 1, 1, [.zero 20], [⟨"./a//./b/c", 1⟩]⟩
    let root := "s/../t/".toList
    d.check = .ok () ∧ Path.isContained "./a//./b/c".toList = true ∧
      [['h'], ['t']] <+: Path.resolve [['h']] (Path.steps root ++ [.down ['a'], .down ['b']]) ∧
      Path.resolve [['h']] (Path.steps root ++ [.down ['a'], .down ['b']]) =
        [['h'], ['t'], ['a'], ['b']] := by
  intro d root
  have hcheck : d.check = .ok () := by decide +kernel
  obtain ⟨-, htext, hpaths⟩ := contained_paths
  obtain ⟨-, hbelow, -⟩ := hpaths d hcheck ⟨"./a//./b/c", 1⟩ (List.mem_cons_self ..) root
  refine ⟨hcheck, (htext _).2 (by decide), hbelow [['h']] _ (by decide) (by decide), by decide⟩

end Torrent
