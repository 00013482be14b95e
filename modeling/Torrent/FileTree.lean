import Torrent.Bytes.Basic
import Torrent.IoError
import Torrent.Path

/-!
# Directories and files

A tree of directories with files in it.  A file is told apart from its name: who
has a file open keeps it when its name is removed.  Two names never share a file,
and a tree carries the proof of that (`FileTree.nodup`, `FileTree.bound`): it
grows by directories and by files that are new (`FileTree.addDirectory`,
`FileTree.addFile`).  File contents are byte strings that grow with zeros where
they are written past their end.

A path is followed name by name from the working directory or from the root.  A
name that is not there, a file that is used as a directory and a name that is too
long are refused where they are met.
-/

namespace Torrent

/-- A name in a directory. -/
abbrev Name := List Char

/-- The number by which an open file is known. -/
abbrev FileId := Nat

/-- What a name stands for. -/
inductive Entry
  | directory
  | file (id : FileId)
deriving DecidableEq

/-- The file that an entry is. -/
def Entry.file? : Entry → Option FileId
  | .directory => none
  | .file id => some id

/-- The files among entries. -/
def filesOf (entries : List (List Name × Entry)) : List FileId :=
  entries.filterMap fun entry => entry.2.file?

/-- A tree of directories and files. -/
structure FileTree where
  /-- The entries by the names that lead to them from the root. -/
  entries : List (List Name × Entry)
  /-- The contents of all files, also of those whose names were removed. -/
  contents : List Bytes
  workingDirectory : List Name
  /-- No two names share a file. -/
  nodup : (filesOf entries).Nodup
  /-- Every name of a file leads to one that is there. -/
  bound : ∀ id ∈ filesOf entries, id < contents.length
deriving DecidableEq

@[simp] theorem filesOf_append (entries more : List (List Name × Entry)) :
    filesOf (entries ++ more) = filesOf entries ++ filesOf more := by
  simp [filesOf]

@[simp] theorem filesOf_directory (names : List Name) : filesOf [(names, .directory)] = [] := rfl

@[simp] theorem filesOf_file (names : List Name) (id : FileId) :
    filesOf [(names, .file id)] = [id] := rfl

theorem filesOf_directories {α : Type} (f : α → List Name) (as : List α) :
    filesOf (as.map fun a => (f a, .directory)) = [] := by
  simp [filesOf, Entry.file?]

theorem filesOf_filter_sublist (keep : List Name × Entry → Bool)
    (entries : List (List Name × Entry)) :
    (filesOf (entries.filter keep)).Sublist (filesOf entries) :=
  List.filter_sublist.filterMap _

namespace FileTree

/-- The tree that holds only a working directory. -/
def empty (workingDirectory : List Name) : FileTree where
  entries := (List.range workingDirectory.length).map fun k =>
    (workingDirectory.take (k + 1), .directory)
  contents := []
  workingDirectory := workingDirectory
  nodup := filesOf_directories .. ▸ .nil
  bound := filesOf_directories .. ▸ nofun

/-- What stands at the end of these names. -/
def entryAt (t : FileTree) (names : List Name) : Option Entry :=
  if names = [] then some .directory else (t.entries.find? (·.1 == names)).map (·.2)

/-- The tree with a new directory. -/
def addDirectory (t : FileTree) (names : List Name) : FileTree :=
  { t with
    entries := t.entries ++ [(names, .directory)]
    nodup := by simpa using t.nodup
    bound := by simpa using t.bound }

/-- The tree with a new file. -/
def addFile (t : FileTree) (names : List Name) (bytes : Bytes) : FileTree :=
  { t with
    entries := t.entries ++ [(names, .file t.contents.length)]
    contents := t.contents ++ [bytes]
    nodup := by
      rw [filesOf_append, filesOf_file, List.nodup_append]
      refine ⟨t.nodup, List.pairwise_singleton _ _, fun id hid new hnew => ?_⟩
      obtain rfl := List.mem_singleton.1 hnew
      exact Nat.ne_of_lt (t.bound id hid)
    bound := by
      intro id hid
      rw [List.length_append, List.length_singleton]
      rw [filesOf_append, filesOf_file, List.mem_append, List.mem_singleton] at hid
      rcases hid with hold | rfl
      · exact Nat.lt_succ_of_lt (t.bound id hold)
      · exact Nat.lt_succ_self _ }

/-- The content of a file. -/
def content (t : FileTree) (id : FileId) : Bytes := t.contents.getD id []

/-- The tree with another content of a file. -/
def setContent (t : FileTree) (id : FileId) (bytes : Bytes) : FileTree :=
  { t with
    contents := t.contents.set id bytes
    bound := by simpa using t.bound }

/-- Bytes written to a file. -/
def writeAt (t : FileTree) (id : FileId) (start : Nat) (bytes : Bytes) : FileTree :=
  t.setContent id ((t.content id).writeAt start bytes)

/-- A file cut or filled up to a length. -/
def setLength (t : FileTree) (id : FileId) (n : Nat) : FileTree :=
  t.setContent id ((t.content id).resize n)

/-- The bytes of a stretch of a file, if it reaches that far. -/
def readAt? (t : FileTree) (id : FileId) (start length : Nat) : Option Bytes :=
  let bytes := ((t.content id).drop start).take length
  if bytes.length = length then some bytes else none

/-! ## Following a path -/

/-- The number of bytes of a name or path. -/
def sizeOf (cs : List Char) : Nat := (String.ofList cs).utf8ByteSize

/-- The longest name, in bytes. -/
def longestName : Nat := 255

/-- The longest path, in bytes. -/
def longestPath : Nat := 4095

/-- The names of a path that are not empty. -/
def realNames (path : List Char) : List Name := (Path.names path).filter (· ≠ [])

/-- Whether a path closes with a slash. -/
def endsInSlash (path : List Char) : Bool := path.getLast? == some '/'

/-- One name followed from a directory: where it leads and what is there. -/
def step (t : FileTree) (directory : List Name) (name : Name) :
    Except IoError (List Name × Option Entry) :=
  if name = ['.'] then .ok (directory, some .directory)
  else if name = ['.', '.'] then .ok (directory.dropLast, some .directory)
  else if longestName < sizeOf name then .error .nameTooLong
  else .ok (directory ++ [name], t.entryAt (directory ++ [name]))

/-- Names followed from a directory to another one. -/
def walk (t : FileTree) (directory : List Name) : List Name → Except IoError (List Name)
  | [] => .ok directory
  | name :: rest =>
    match t.step directory name with
    | .error e => .error e
    | .ok (_, none) => .error .notFound
    | .ok (_, some (.file _)) => .error .notDirectory
    | .ok (names, some .directory) => t.walk names rest

/-- Where a path leads and what is there, when all but its last name lead to a directory. -/
def locate (t : FileTree) (path : List Char) : Except IoError (List Name × Option Entry) :=
  if '\x00' ∈ path then .error .zeroInName
  else if path = [] then .error .notFound
  else if longestPath < sizeOf path then .error .nameTooLong
  else
    let start := if Path.isAbsolute path then [] else t.workingDirectory
    let names := realNames path
    match names.getLast? with
    | none => .ok (start, some .directory)
    | some last =>
      match t.walk start names.dropLast with
      | .error e => .error e
      | .ok directory => t.step directory last

/-- What a path leads to. -/
def find (t : FileTree) (path : List Char) : Except IoError Entry :=
  match t.locate path with
  | .error e => .error e
  | .ok (_, none) => .error .notFound
  | .ok (_, some .directory) => .ok .directory
  | .ok (_, some (.file id)) => if endsInSlash path then .error .notDirectory else .ok (.file id)

/-- Whether a path leads to a directory. -/
def isDirectory (t : FileTree) (path : List Char) : Bool :=
  match t.find path with
  | .ok .directory => true
  | _ => false

/-! ## Making, opening and removing -/

/-- A new directory. -/
def makeDirectory (t : FileTree) (path : List Char) : Except IoError FileTree :=
  match t.locate path with
  | .error e => .error e
  | .ok (_, some _) => .error .exists_
  | .ok (names, none) => .ok (t.addDirectory names)

/-- A new directory, or one that is there. -/
def ensureDirectory (t : FileTree) (path : List Char) : Except IoError FileTree :=
  match t.makeDirectory path with
  | .ok t => .ok t
  | .error e => if t.isDirectory path then .ok t else .error e

/-- A directory with all those above it, at most `n` of them.  What was made before a failure
stays. -/
def makeDirectoriesWithin (t : FileTree) : Nat → List Char → Except IoError Unit × FileTree
  | 0, path =>
    match t.ensureDirectory path with
    | .ok t => (.ok (), t)
    | .error e => (.error e, t)
  | n + 1, path =>
    if path = [] then (.ok (), t)
    else
      match t.makeDirectory path with
      | .ok t => (.ok (), t)
      | .error .notFound =>
        match Path.parent? path with
        | none => (.error (.other "failed to create whole tree"), t)
        | some parent =>
          match t.makeDirectoriesWithin n parent with
          | (.error e, t) => (.error e, t)
          | (.ok (), t) =>
            match t.ensureDirectory path with
            | .ok t => (.ok (), t)
            | .error e => (.error e, t)
      | .error e => (if t.isDirectory path then .ok () else .error e, t)

/-- A directory with all those above it. -/
def makeDirectories (t : FileTree) (path : List Char) : Except IoError Unit × FileTree :=
  t.makeDirectoriesWithin ((Path.steps path).length + 1) path

/-- A file opened to read and write, made if it is not there. -/
def openFile (t : FileTree) (path : List Char) : Except IoError (FileId × FileTree) :=
  match t.locate path with
  | .error e => .error e
  | .ok (names, found) =>
    if endsInSlash path then .error .isDirectory
    else
      match found with
      | some .directory => .error .isDirectory
      | some (.file id) => .ok (id, t)
      | none => .ok (t.contents.length, t.addFile names [])

/-- The whole content of a file. -/
def readFile (t : FileTree) (path : List Char) : Except IoError Bytes :=
  match t.find path with
  | .error e => .error e
  | .ok .directory => .error .isDirectory
  | .ok (.file id) => .ok (t.content id)

/-- A file with this content and no other. -/
def writeFile (t : FileTree) (path : List Char) (bytes : Bytes) : Except IoError FileTree :=
  match t.openFile path with
  | .error e => .error e
  | .ok (id, t) => .ok (t.setContent id bytes)

/-- The tree without an entry. -/
def without (t : FileTree) (names : List Name) : FileTree :=
  { t with
    entries := t.entries.filter (·.1 != names)
    nodup := t.nodup.sublist (filesOf_filter_sublist ..)
    bound := fun id hid => t.bound id ((filesOf_filter_sublist ..).subset hid) }

/-- The tree without a file. -/
def removeFile (t : FileTree) (path : List Char) : Except IoError FileTree :=
  match t.locate path with
  | .error e => .error e
  | .ok (_, none) => .error .notFound
  | .ok (_, some .directory) => .error .isDirectory
  | .ok (names, some (.file _)) =>
    if endsInSlash path then .error .notDirectory
    else .ok (t.without names)

/-! ## Listing -/

/-- The entries below the working directory: the path from there, and the content of a file. -/
def listing (t : FileTree) : List (List Char × Option Bytes) :=
  t.entries.filterMap fun (names, e) =>
    if t.workingDirectory.length < names.length ∧ t.workingDirectory.isPrefixOf names then
      let path := Path.joinNames (names.drop t.workingDirectory.length)
      some (path, match e with
        | .directory => none
        | .file id => some (t.content id))
    else none

end FileTree

end Torrent
