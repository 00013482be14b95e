import Torrent.Store.Read
import Torrent.Store.Write

/-!
# Several calls on one store

A store serves several callers at a time: pieces are written and stretches read
while other pieces are, and files are closed in between.  An archive is a store
with its files and the calls that were made on it.

The calls take their turns in any order.  A turn is one effect of one call, so
anything may come between two effects of the same call.  A call that is over stays
in the list with its result.

Closing the store closes one file after the other (`Store.close_eq_release`), and
other calls come in between here too.
-/

namespace Torrent

/-- The store with one of its files closed. -/
def Store.release (s : Store) (file : Nat) : Store :=
  { s with slots := s.slots.modify file fun slot => { slot with handle := none } }

/-- A call on a store, and how far it is. -/
inductive Call
  | write (index : PieceIndex) (data : Bytes) (writing : Writing)
  | read (index : PieceIndex) (start length : Nat) (reading : Reading)

/-- A store at work. -/
structure Archive where
  store : Store
  tree : FileTree
  calls : List Call

namespace Archive

/-- What can happen to an archive next. -/
inductive Act
  /-- A piece is to be written. -/
  | write (index : PieceIndex) (data : Bytes)
  /-- A stretch of a piece is to be read. -/
  | read (index : PieceIndex) (start length : Nat)
  /-- A call has its next effect.  An effect of writing fails if `fault` says so. -/
  | proceed (call : Nat) (fault : Option Fault)
  /-- A file is closed. -/
  | release (file : Nat)
deriving DecidableEq

/-- A store on which no call was made. -/
def idle (s : Store) (t : FileTree) : Archive := ⟨s, t, []⟩

/-- One effect of a call. -/
def turn (a : Archive) (k : Nat) (fault : Option Fault) : Archive :=
  match a.calls[k]? with
  | none => a
  | some (.write i data w) =>
    let (w, s, t) := w.step fault a.store a.tree
    ⟨s, t, a.calls.set k (.write i data w)⟩
  | some (.read i start length r) =>
    let (r, s, t) := r.step a.store a.tree
    ⟨s, t, a.calls.set k (.read i start length r)⟩

/-- What an act does. -/
def act (a : Archive) : Act → Archive
  | .write i data => { a with calls := a.calls ++ [.write i data (a.store.write i data)] }
  | .read i start length =>
    { a with calls := a.calls ++ [.read i start length (a.store.read i start length)] }
  | .proceed k fault => a.turn k fault
  | .release file => { a with store := a.store.release file }

/-- What acts do one after the other. -/
def run (a : Archive) (acts : List Act) : Archive := acts.foldl act a

end Archive

end Torrent
