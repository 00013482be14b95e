import Torrent.Proofs.Archive.Turns
import Torrent.Proofs.Store.ResumeFile

/-!
# Calls and their pieces

Every call that writes is at a piece of the torrent, and the file that it has open is
that of the segment which comes next (`Archive.Manned`).  This holds whatever the
places of the files are, also where a file of the torrent is the resume file.
-/

namespace Torrent

namespace Writing

variable {w w' : Writing} {s s' : Store} {t t' : FileTree} {fault : Option Fault}
  {i : PieceIndex} {data : Bytes}

/-- The segments of what is left to write are those of the piece, and the file that is open is that
of the segment which comes next. -/
def Aims (s : Store) (t : FileTree) (i : PieceIndex) (data : Bytes) : Writing → Prop
  | .placing _ left => ∃ gs, s.Laid i data gs ∧ ∀ c ∈ left, c.1 ∈ gs
  | .opened _ id left =>
    (∃ gs, s.Laid i data gs ∧ ∀ c ∈ left, c.1 ∈ gs) ∧
      ∀ c rest, left = c :: rest → s.FileAt t c.1.file id
  | .finished (.error _) => True
  | .marking _ | .saving _ | .cutting _ _ | .finished (.ok ()) => ∃ gs, s.Laid i data gs

theorem aims_write (s : Store) (t : FileTree) (i : PieceIndex) (data : Bytes) :
    (s.write i data).Aims s t i data := by
  rcases write_cases s i data with ⟨e, hwrite⟩ | ⟨left, hwrite⟩
  · rw [hwrite]
    trivial
  · rw [hwrite]
    obtain ⟨-, gs, hlaid, rfl⟩ := Store.laid_of_write hwrite
    exact ⟨gs, hlaid, fun c hc => mem_of_mem_deal hc⟩

theorem Aims.keeps (h : w.Aims s t i data) (hlayout : s'.layout = s.layout)
    (hkeeps : t.Keeps t') : w.Aims s' t' i data := by
  cases w with
  | placing j left =>
      obtain ⟨gs, hlaid, hleft⟩ := h
      exact ⟨gs, hlaid.of_layout hlayout, hleft⟩
  | opened j id left =>
      obtain ⟨⟨gs, hlaid, hleft⟩, hfile⟩ := h
      exact ⟨⟨gs, hlaid.of_layout hlayout, hleft⟩,
        fun c rest heq => (hfile c rest heq).keeps hlayout hkeeps⟩
  | marking j => exact h.imp fun gs hlaid => hlaid.of_layout hlayout
  | saving bitmap => exact h.imp fun gs hlaid => hlaid.of_layout hlayout
  | cutting n failure => exact h.imp fun gs hlaid => hlaid.of_layout hlayout
  | finished result =>
      cases result with
      | ok u => exact h.imp fun gs hlaid => hlaid.of_layout hlayout
      | error e => trivial

theorem Aims.step (h : w.Aims s t i data) (hs : s.Handles t)
    (he : Effect fault s t w w' s' t') : w'.Aims s' t' i data := by
  cases he with
  | placed =>
      obtain ⟨gs, hlaid, -⟩ := h
      exact ⟨gs, hlaid⟩
  | opening hopen =>
      obtain ⟨gs, hlaid, hleft⟩ := h
      refine ⟨⟨gs, hlaid.of_layout (Store.openSlot_store hopen).1, hleft⟩, fun c rest heq => ?_⟩
      cases heq
      exact (Store.openSlot_spec hs hopen).2.2 _ rfl
  | idle =>
      obtain ⟨⟨gs, hlaid, -⟩, -⟩ := h
      exact ⟨gs, hlaid⟩
  | written =>
      obtain ⟨⟨gs, hlaid, hleft⟩, -⟩ := h
      exact ⟨gs, hlaid, fun c hc => hleft c (List.mem_cons_of_mem _ hc)⟩
  | ended => exact h
  | waited => exact h
  | marked => exact h.imp fun gs hlaid => hlaid.of_layout rfl
  | saved => exact h
  | closed => exact h.imp fun gs hlaid => hlaid.of_layout rfl
  | _ => trivial

end Writing

namespace Archive

variable {d : Descriptor} {a b : Archive} {e : Act}

/-- An archive whose calls write pieces of the torrent. -/
structure Manned (d : Descriptor) (a : Archive) : Prop where
  fits : a.store.Fits d
  settled : a.store.Settled a.tree
  size : a.store.completed.bytes.length = byteLength d.pieceCount
  tracks : ∀ i data w, .write i data w ∈ a.calls → w.Tracks i a.store
  aims : ∀ i data w, .write i data w ∈ a.calls → w.Aims a.store a.tree i data

theorem Manned.turn (h : a.Manned d) (hturn : Turn a e b) : b.Manned d := by
  have hlater := hturn.later h.settled
  have hlayout := hlater.grows.layout
  refine ⟨h.fits.of_layout hlayout, hlater.settled, hlater.grows.size.trans h.size, ?_, ?_⟩
  · intro i data w' hcall
    rcases hturn.writing hcall with hold | ⟨-, rfl⟩ | ⟨k, fault, w, -, hold, heffect⟩
    · exact (h.tracks i data w' hold).grows hlater.grows
    · exact Writing.tracks_write b.store i data
    · have hmem := List.mem_of_getElem? hold
      refine (h.tracks i data w hmem).step (fun hmarking => ?_) heffect
      have haims := h.aims i data w hmem
      rw [hmarking] at haims
      obtain ⟨gs, hlaid⟩ := haims
      rw [h.size]
      exact div_lt_byteLength (hlaid.lt h.fits)
  · intro i data w' hcall
    rcases hturn.writing hcall with hold | ⟨-, rfl⟩ | ⟨k, fault, w, -, hold, heffect⟩
    · exact (h.aims i data w' hold).keeps hlayout hlater.keeps
    · exact Writing.aims_write b.store b.tree i data
    · exact (h.aims i data w (List.mem_of_getElem? hold)).step h.settled.handles heffect

/-- A store that was opened is manned before the first call. -/
theorem manned_idle {s : Store} {t t' : FileTree} {root name : List Char}
    (hopen : Store.open_ t root d name = (.ok s, t')) : (idle s t').Manned d :=
  ⟨Store.fits_open hopen, Store.settled_open hopen, Store.size_open hopen, nofun, nofun⟩

end Archive

end Torrent
