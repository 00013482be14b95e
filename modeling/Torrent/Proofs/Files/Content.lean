import Torrent.Proofs.Bytes.Stretch
import Torrent.Proofs.Files.Opening

/-!
# What is written is read

Reading a stretch of a file gives what its content has there
(`FileTree.readAt?_eq_some_iff`), and writing to a file leaves the other files
whole.
-/

namespace Torrent

namespace FileTree

variable {t : FileTree}

/-- A stretch of a file that is all there is read. -/
theorem readAt?_eq_some_iff {id : FileId} {start length : Nat} {bytes : Bytes} :
    t.readAt? id start length = some bytes ↔
      (t.content id).stretch start length = bytes ∧ bytes.length = length := by
  show (if ((t.content id).stretch start length).length = length then
    some ((t.content id).stretch start length) else none) = some bytes ↔ _
  constructor
  · intro h
    split at h
    next hlength =>
      cases h
      exact ⟨rfl, hlength⟩
    next => cases h
  · rintro ⟨rfl, hlength⟩
    rw [if_pos hlength]

theorem keeps_setContent (t : FileTree) (id : FileId) (bytes : Bytes) :
    t.Keeps (t.setContent id bytes) :=
  ⟨rfl, fun _ _ h => h⟩

theorem content_setContent_self {id : FileId} (hid : id < t.contents.length) (bytes : Bytes) :
    (t.setContent id bytes).content id = bytes := by
  simp only [content, setContent]
  rw [List.getD_eq_getElem?_getD, List.getElem?_set_self hid]
  rfl

theorem content_setContent_of_ne {id other : FileId} (hne : id ≠ other) (bytes : Bytes) :
    (t.setContent id bytes).content other = t.content other := by
  simp only [content, setContent]
  rw [List.getD_eq_getElem?_getD, List.getD_eq_getElem?_getD, List.getElem?_set_ne hne]

end FileTree

end Torrent
