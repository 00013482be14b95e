/-!
# Paths

A path is text with slashes in it.  What matters of it are its steps: where it
starts, and which names it goes through.  Empty names say nothing, and a single
point says nothing except in front of a relative path.

`Path.isContained` accepts the paths that stay below the directory they are
joined to: relative ones with a step at all and no step back.
-/

namespace Torrent.Path

/-- A step of a path. -/
inductive Step
  /-- From the root of the system. -/
  | root
  | stay
  | back
  | down (name : List Char)
deriving DecidableEq

/-- A name with one more character in front. -/
def pushChar (c : Char) : List (List Char) → List (List Char)
  | [] => [[c]]
  | name :: rest => (c :: name) :: rest

/-- The names between the slashes, empty ones included. -/
def names : List Char → List (List Char)
  | [] => [[]]
  | c :: cs => if c = '/' then [] :: names cs else pushChar c (names cs)

/-- The step of a name that is not the first of a relative path. -/
def laterStep? (name : List Char) : Option Step :=
  if name = [] ∨ name = ['.'] then none
  else if name = ['.', '.'] then some .back
  else some (.down name)

/-- Whether a path starts at the root of the system. -/
def isAbsolute (path : List Char) : Bool := path.head? == some '/'

/-- The steps of a path. -/
def steps (path : List Char) : List Step :=
  let later := (names path).filterMap laterStep?
  if isAbsolute path then .root :: later
  else if (names path).head? = some ['.'] then .stay :: later
  else later

/-- Whether a path stays below the directory it is joined to. -/
def isContained (path : List Char) : Bool :=
  !(steps path).isEmpty && (steps path).all fun
    | .down _ | .stay => true
    | .root | .back => false

/-- A path below another.  An absolute one stands for itself. -/
def join (base path : List Char) : List Char :=
  if isAbsolute path ∨ base = [] then path
  else if base.getLast? = some '/' then base ++ path
  else base ++ '/' :: path

/-- The name that a step is written as. -/
def Step.name : Step → List Char
  | .root => []
  | .stay => ['.']
  | .back => ['.', '.']
  | .down name => name

/-- Names with slashes between them. -/
def joinNames : List (List Char) → List Char
  | [] => []
  | [name] => name
  | name :: rest => name ++ '/' :: joinNames rest

/-- The path of these steps. -/
def ofSteps : List Step → List Char
  | [.root] => ['/']
  | steps => joinNames (steps.map Step.name)

/-- The path without its last step.  The root has none above it. -/
def parent? (path : List Char) : Option (List Char) :=
  match (steps path).getLast? with
  | none | some .root => none
  | some _ => some (ofSteps (steps path).dropLast)

end Torrent.Path
