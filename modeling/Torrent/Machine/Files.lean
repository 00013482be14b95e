import Torrent.FileTree

/-!
# The files of a real machine

A download works on a `FileTree`.  Here the part of the machine that it needs is
taken into such a tree, and what is done to the tree is done to the machine.

Positions in a file are reached by reading up to them, and a gap behind the end
is filled with zeros.
-/

namespace Torrent.Machine

/-- The number and the text of a failure, if the system gave it a number. -/
def numbered? : IO.Error → Option (UInt32 × String)
  | .alreadyExists _ n text | .otherError n text | .resourceBusy n text | .resourceVanished n text
  | .unsupportedOperation n text | .hardwareFault n text | .unsatisfiedConstraints n text
  | .illegalOperation n text | .protocolError n text | .timeExpired n text | .interrupted _ n text
  | .noFileOrDirectory _ n text | .invalidArgument _ n text | .permissionDenied _ n text
  | .resourceExhausted _ n text | .inappropriateType _ n text | .noSuchThing _ n text =>
    some (n, text)
  | .unexpectedEof | .userError _ => none

/-- The failure that the system reported. -/
def failureOf (e : IO.Error) : IoError :=
  match numbered? e with
  | some (2, _) => .notFound
  | some (17, _) => .exists_
  | some (20, _) => .notDirectory
  | some (21, _) => .isDirectory
  | some (32, _) => .brokenPipe
  | some (36, _) => .nameTooLong
  | some (104, _) => .reset
  | some (n, text) => .other (text ++ " (os error " ++ toString n.toNat ++ ")")
  | none => .other (toString e)

/-- An action with the failure that the system reported. -/
def attempt {α : Type} (action : IO α) : IO (Except IoError α) := do
  match ← action.toBaseIO with
  | .ok a => return .ok a
  | .error e => return .error (failureOf e)

/-- The path of an entry. -/
def pathOf (names : List Name) : String := String.ofList ('/' :: Path.joinNames names)

/-- The path of an open file. -/
def pathOfFile? (t : FileTree) (id : FileId) : Option String :=
  (t.entries.find? (·.2 == .file id)).map fun (names, _) => pathOf names

/-! ## From the machine -/

/-- The whole content of a file. -/
def read (path : String) : IO (Except IoError Bytes) :=
  attempt do return (← (← IO.FS.Handle.mk path .read).readBinToEnd).data.toList

/-- The tree with what lies on the way down these names. -/
def noteBelow (t : FileTree) (directory : List Name) : List Name → IO FileTree
  | [] => return t
  | name :: rest => do
    match t.step directory name with
    | .error _ | .ok (_, some (.file _)) => return t
    | .ok (names, some .directory) => noteBelow t names rest
    | .ok (names, none) =>
      match ← read (pathOf names) with
      | .error .isDirectory => noteBelow (t.addDirectory names) names rest
      | .error .notFound | .error .notDirectory => return t
      | content => return t.addFile names (content.toOption.getD [])

/-- The tree of what lies at these paths and above them. -/
def treeOf (paths : List (List Char)) : IO FileTree := do
  let here := FileTree.realNames (← IO.currentDir).toString.toList
  paths.foldlM (fun t path => noteBelow t (if Path.isAbsolute path then [] else here)
    (FileTree.realNames path)) (.empty here)

/-! ## To the machine -/

/-- The entries that a tree has more than an older one, made on the machine. -/
def makeNew (old new : FileTree) : IO Unit :=
  (new.entries.drop old.entries.length).forM fun (names, e) =>
    match e with
    | .directory => IO.FS.createDir (pathOf names)
    | .file _ => discard (IO.FS.Handle.mk (pathOf names) .append)

/-- A file of the tree opened on the machine. -/
def openFile (t : FileTree) (id : FileId) : IO IO.FS.Handle :=
  match pathOfFile? t id with
  | some path => IO.FS.Handle.mk path .readWrite
  | none => throw (.noFileOrDirectory "" 2 "")

/-- An open file moved on by `n` bytes. -/
def skip (file : IO.FS.Handle) (n : Nat) : IO Unit := do
  if n = 0 then return
  let passed ← file.read (USize.ofNat (min n 1048576))
  if _ended : passed.size = 0 then file.write ⟨(Bytes.zeros n).toArray⟩
  else skip file (n - passed.size)
termination_by n

/-- Bytes written to a file of the tree. -/
def writeAt (t : FileTree) (id : FileId) (start : Nat) (bytes : Bytes) : IO Unit := do
  let file ← openFile t id
  skip file start
  file.write ⟨bytes.toArray⟩
  file.flush

/-- A file of the tree cut or filled up to a length. -/
def setLength (t : FileTree) (id : FileId) (n : Nat) : IO Unit := do
  let file ← openFile t id
  skip file n
  file.truncate

end Torrent.Machine
