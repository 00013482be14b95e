import Torrent.Proofs.Files.Content
import Torrent.Proofs.Store.Segments

/-!
# Pieces in their files

A store is housed (`Store.Housed`) when its files are at different places, none of
them the place of the resume file.  Then its files are different files, and a
chunk that is in them (`Store.Holds`) stays there whatever else is opened or
written, as long as nothing else is written over it (`Store.Holds.write`,
`Store.Holds.rewrite`).

`Store.Lies` follows the writing of one piece: the chunks in front are in the
files, those that are left are to come.  A step of writing brings its own piece on
(`Writing.Effect.carries`).  `Writing.Touch` lists what it can do to the files, and from
that list it is read off that it leaves every other piece alone
(`Writing.Effect.holds`).  `Store.Placed` is the same for a piece of which only the
digest is known.
-/

namespace Torrent

/-! ## Open files -/

/-- A path leads to a file, and the directory above it is there. -/
structure FileTree.Opened (t : FileTree) (path : List Char) (id : FileId) : Prop
    extends LeadsTo t path id where
  parent : ∀ parent, Path.parent? path = some parent → parent = [] ∨ t.isDirectory parent = true

theorem FileTree.Opened.keeps {t t' : FileTree} {path : List Char} {id : FileId}
    (h : t.Opened path id) (hkeeps : t.Keeps t') : t'.Opened path id := by
  refine ⟨h.toLeadsTo.keeps hkeeps, fun parent hparent => ?_⟩
  rcases h.parent parent hparent with hnil | hdirectory
  · exact .inl hnil
  · exact .inr (hkeeps.isDirectory hdirectory)

namespace Store

variable {s s' : Store} {t t' : FileTree} {file : Nat} {id : FileId} {c : Chunk}

/-- The path of a file of the store. -/
def path? (s : Store) (file : Nat) : Option (List Char) := s.slots[file]?.map (·.path)

theorem path?_of_layout (h : s'.layout = s.layout) (file : Nat) : s'.path? file = s.path? file := by
  have hslots := congrArg (fun s : Store => s.slots[file]?.map (·.path)) h
  simp only [layout, List.getElem?_map, Option.map_map] at hslots
  exact hslots

/-- A file of the store is there. -/
def FileAt (s : Store) (t : FileTree) (file : Nat) (id : FileId) : Prop :=
  ∃ path, s.path? file = some path ∧ t.Opened path id

theorem FileAt.keeps (h : s.FileAt t file id) (hlayout : s'.layout = s.layout)
    (hkeeps : t.Keeps t') : s'.FileAt t' file id := by
  obtain ⟨path, hpath, hopened⟩ := h
  exact ⟨path, (path?_of_layout hlayout file).trans hpath, hopened.keeps hkeeps⟩

/-- A file of the store is one file. -/
theorem FileAt.unique {id' : FileId} (h : s.FileAt t file id) (h' : s.FileAt t file id') :
    id = id' := by
  obtain ⟨path, hpath, hopened⟩ := h
  obtain ⟨path', hpath', hopened'⟩ := h'
  rw [hpath] at hpath'
  cases hpath'
  have hsame := hopened.locate.symm.trans hopened'.locate
  cases hsame
  rfl

/-- What stands at the place of a file of the store, whether or not the way there is open. -/
def StandsAt (s : Store) (t : FileTree) (file : Nat) (id : FileId) : Prop :=
  ∃ path, s.path? file = some path ∧ t.entryAt (t.place path) = some (.file id)

theorem StandsAt.keeps (h : s.StandsAt t file id) (hlayout : s'.layout = s.layout)
    (hkeeps : t.Keeps t') : s'.StandsAt t' file id := by
  obtain ⟨path, hpath, hentry⟩ := h
  refine ⟨path, (path?_of_layout hlayout file).trans hpath, ?_⟩
  rw [hkeeps.place_eq]
  exact hkeeps.entries _ _ hentry

theorem FileAt.standsAt (h : s.FileAt t file id) : s.StandsAt t file id := by
  obtain ⟨path, hpath, hopened⟩ := h
  exact ⟨path, hpath, hopened.entry⟩

/-- What is open of a store is open in its files. -/
def Handles (s : Store) (t : FileTree) : Prop :=
  ∀ slot ∈ s.slots, ∀ id, slot.handle = some id → t.Opened slot.path id

theorem Handles.keeps (h : s.Handles t) (hkeeps : t.Keeps t') : s.Handles t' :=
  fun slot hslot id hid => (h slot hslot id hid).keeps hkeeps

theorem handles_close (s : Store) (t : FileTree) : s.close.Handles t := by
  intro slot hslot id hid
  obtain ⟨slot', -, rfl⟩ := List.mem_map.1 hslot
  cases hid

theorem makeParent_spec {slot : Slot} {result : Except IoError Unit}
    (h : makeParent t slot = (result, t')) :
    t.Furnished t' ∧ (result = .ok () →
      ∀ parent, Path.parent? slot.path = some parent →
        parent = [] ∨ t'.isDirectory parent = true) := by
  simp only [makeParent] at h
  split at h
  next parent hparent =>
    simp only [FileTree.makeDirectories] at h
    obtain ⟨hfurnished, hmade⟩ := FileTree.makeDirectoriesWithin_spec h
    refine ⟨hfurnished, fun hok parent' hparent' => ?_⟩
    rw [hparent] at hparent'
    cases hparent'
    exact hmade hok
  next hparent =>
    cases h
    refine ⟨.refl t, fun _ parent' hparent' => ?_⟩
    rw [hparent] at hparent'
    cases hparent'

/-- Opening a file of a store changes no file that is there. -/
theorem openSlot_extends {result : Except IoError FileId}
    (h : s.openSlot t file = (result, s', t')) : t.Extends t' := by
  simp only [openSlot] at h
  split at h
  next =>
    cases h
    exact .refl t
  next =>
    split at h
    next =>
      cases h
      exact .refl t
    next =>
      split at h
      next hparent =>
        cases h
        exact (makeParent_spec hparent).1.extends
      next hparent =>
        have hfurnished := (makeParent_spec hparent).1
        split at h
        next =>
          cases h
          exact hfurnished.extends
        next hopen =>
          cases h
          exact hfurnished.extends.trans (FileTree.openFile_spec hopen).1

/-- Opening a file of a store may make directories and the file, and gives the file that is there
then. -/
theorem openSlot_spec {result : Except IoError FileId} (hs : s.Handles t)
    (h : s.openSlot t file = (result, s', t')) :
    t.Extends t' ∧ s'.Handles t' ∧ ∀ id, result = .ok id → s'.FileAt t' file id := by
  have hlayout := (openSlot_store h).1
  simp only [openSlot] at h
  split at h
  next =>
    cases h
    refine ⟨.refl t, hs, fun id hid => ?_⟩
    cases hid
  next slot hslot =>
    have hmem := List.mem_of_getElem? hslot
    split at h
    next id hid =>
      cases h
      refine ⟨.refl t, hs, fun id' hid' => ?_⟩
      cases hid'
      exact ⟨slot.path, by rw [path?, hslot]; rfl, hs slot hmem id hid⟩
    next =>
      split at h
      next made hparent =>
        cases h
        have hfurnished := (makeParent_spec hparent).1
        refine ⟨hfurnished.extends, hs.keeps hfurnished.toKeeps, fun id hid => ?_⟩
        cases hid
      next made hparent =>
        obtain ⟨hfurnished, hthere⟩ := makeParent_spec hparent
        split at h
        next =>
          cases h
          refine ⟨hfurnished.extends, hs.keeps hfurnished.toKeeps, fun id hid => ?_⟩
          cases hid
        next id opened hopen =>
          cases h
          obtain ⟨hextends, hleads, -⟩ := FileTree.openFile_spec hopen
          have hall := hfurnished.extends.trans hextends
          have hopened : t'.Opened slot.path id := by
            refine ⟨hleads, fun parent hp => ?_⟩
            rcases hthere rfl parent hp with hnil | hdirectory
            · exact .inl hnil
            · exact .inr (hextends.toKeeps.isDirectory hdirectory)
          refine ⟨hall, ?_, ?_⟩
          · intro slot' hslot' id' hid'
            rcases List.mem_or_eq_of_mem_set hslot' with hold | rfl
            · exact (hs.keeps hall.toKeeps) slot' hold id' hid'
            · cases hid'
              exact hopened
          · intro id' hid'
            cases hid'
            refine ⟨slot.path, ?_, hopened⟩
            rw [path?_of_layout hlayout, path?, hslot]
            rfl

/-- Opening a file that is there gives it and changes no file. -/
theorem openSlot_of_fileAt (hs : s.Handles t) (h : s.FileAt t file id) :
    ∃ s', s.openSlot t file = (.ok id, s', t) ∧ s'.Handles t ∧ s'.layout = s.layout := by
  obtain ⟨path, hpath, hopened⟩ := h
  obtain ⟨slot, hslot, rfl⟩ := Option.map_eq_some_iff.1 hpath
  have hopenSlot : ∃ s', s.openSlot t file = (.ok id, s', t) := by
    simp only [openSlot]
    rw [hslot]
    dsimp only
    cases hhandle : slot.handle with
    | some other =>
        have hother := hs slot (List.mem_of_getElem? hslot) other hhandle
        have hsame := hother.locate
        rw [hopened.locate] at hsame
        cases hsame
        exact ⟨s, rfl⟩
    | none =>
        have hparent : makeParent t slot = (.ok (), t) := by
          simp only [makeParent]
          cases hparent : Path.parent? slot.path with
          | none => rfl
          | some parent =>
              exact FileTree.makeDirectories_of_isDirectory (hopened.parent parent hparent)
        rw [hparent]
        dsimp only
        rw [hopened.openFile]
        exact ⟨_, rfl⟩
  obtain ⟨s', hs'⟩ := hopenSlot
  exact ⟨s', hs', (openSlot_spec hs hs').2.1, (openSlot_store hs').1⟩

/-! ## Stores in different files -/

/-- The places of the files of a store, that of the resume file first. -/
def places (s : Store) (t : FileTree) : List (List Name) :=
  t.place s.resumePath :: s.slots.map fun slot => t.place slot.path

/-- The open files of a store and its resume file are where they belong. -/
structure Settled (s : Store) (t : FileTree) : Prop where
  handles : s.Handles t
  resume : t.entryAt (t.place s.resumePath) = some (.file s.resume)

theorem places_eq (hlayout : s'.layout = s.layout) (hkeeps : t.Keeps t') :
    s'.places t' = s.places t := by
  have hslots := congrArg (fun s : Store => s.slots.map fun slot => t.place slot.path) hlayout
  simp only [layout, List.map_map] at hslots
  have hplace : t'.place = t.place := funext hkeeps.place_eq
  simp only [places]
  rw [resumePath_of_layout hlayout, hplace]
  exact congrArg _ hslots

namespace Settled

/-- A store stays settled when names are added. -/
theorem keeps (h : s.Settled t) (hlayout : s'.layout = s.layout) (hkeeps : t.Keeps t')
    (hhandles : s'.Handles t') : s'.Settled t' := by
  refine ⟨hhandles, ?_⟩
  rw [hkeeps.place_eq, resumePath_of_layout hlayout, resume_of_layout hlayout]
  exact hkeeps.entries _ _ h.resume

theorem openSlot {result : Except IoError FileId} (h : s.Settled t)
    (hopen : s.openSlot t file = (result, s', t')) : s'.Settled t' := by
  obtain ⟨hextends, hhandles, -⟩ := openSlot_spec h.handles hopen
  exact h.keeps (openSlot_store hopen).1 hextends.toKeeps hhandles

theorem setContent (h : s.Settled t) (id : FileId) (bytes : Bytes) :
    s.Settled (t.setContent id bytes) := by
  have hkeeps := t.keeps_setContent id bytes
  exact h.keeps rfl hkeeps (h.handles.keeps hkeeps)

theorem of_layout (h : s.Settled t) (hlayout : s'.layout = s.layout) (hhandles : s'.Handles t) :
    s'.Settled t :=
  h.keeps hlayout (.refl t) hhandles

end Settled

/-- The files of a store are different files. -/
structure Housed (s : Store) (t : FileTree) : Prop extends Settled s t where
  nodup : (s.places t).Nodup

namespace Housed

/-- A store stays housed when names are added. -/
theorem keeps (h : s.Housed t) (hlayout : s'.layout = s.layout) (hkeeps : t.Keeps t')
    (hsettled : s'.Settled t') : s'.Housed t' :=
  ⟨hsettled, places_eq hlayout hkeeps ▸ h.nodup⟩

theorem of_layout (h : s.Housed t) (hlayout : s'.layout = s.layout) (hhandles : s'.Handles t) :
    s'.Housed t :=
  h.keeps hlayout (.refl t) (h.toSettled.of_layout hlayout hhandles)

end Housed

theorem getElem?_places {path : List Char} (h : s.path? file = some path) :
    (s.places t)[file + 1]? = some (t.place path) := by
  obtain ⟨slot, hslot, rfl⟩ := Option.map_eq_some_iff.1 h
  simp only [places]
  rw [List.getElem?_cons_succ, List.getElem?_map, hslot]
  rfl

/-- A file of a housed store is known by its place. -/
theorem Housed.eq_of_place (h : s.Housed t) {file' : Nat} {path path' : List Char}
    (hpath : s.path? file = some path) (hpath' : s.path? file' = some path')
    (hsame : t.place path = t.place path') : file = file' := by
  have hplace := getElem?_places (t := t) hpath
  have hplace' := getElem?_places (t := t) hpath'
  rw [← hsame] at hplace'
  have := (List.getElem?_inj (List.getElem?_eq_some_iff.1 hplace).1 h.nodup).1
    (hplace.trans hplace'.symm)
  omega

/-- Different files of a store are different files. -/
theorem Housed.file_eq (h : s.Housed t) {file' : Nat} (hfile : s.StandsAt t file id)
    (hfile' : s.StandsAt t file' id) : file = file' := by
  obtain ⟨path, hpath, hentry⟩ := hfile
  obtain ⟨path', hpath', hentry'⟩ := hfile'
  exact h.eq_of_place hpath hpath' (FileTree.eq_of_entryAt hentry hentry')

/-- A file at another place than the resume file is another file. -/
theorem Settled.ne_resume (h : s.Settled t) {path : List Char}
    (hentry : t.entryAt (t.place path) = some (.file id))
    (hplace : t.place path ≠ t.place s.resumePath) : s.resume ≠ id := by
  rintro rfl
  exact hplace (FileTree.eq_of_entryAt hentry h.resume)

/-- No place of a file of a housed store is that of the resume file. -/
theorem Housed.place_ne_resume (h : s.Housed t) {path : List Char}
    (hpath : s.path? file = some path) : t.place path ≠ t.place s.resumePath := by
  intro hsame
  have hnodup := h.nodup
  simp only [places] at hnodup
  rw [← hsame] at hnodup
  have hplace := getElem?_places (t := t) hpath
  simp only [places, List.getElem?_cons_succ] at hplace
  exact (List.nodup_cons.1 hnodup).1 (List.mem_of_getElem? hplace)

/-- No file of a housed store is its resume file. -/
theorem Housed.ne_resume (h : s.Housed t) (hfile : s.StandsAt t file id) : s.resume ≠ id := by
  obtain ⟨path, hpath, hentry⟩ := hfile
  exact h.toSettled.ne_resume hentry (h.place_ne_resume hpath)

theorem StandsAt.lt_size (h : s.StandsAt t file id) : id < t.contents.length := by
  obtain ⟨path, hpath, hentry⟩ := h
  exact FileTree.lt_size_of_entryAt hentry

/-! ## Chunks in files -/

/-- A chunk is in its file. -/
def Holds (s : Store) (t : FileTree) (c : Chunk) : Prop :=
  ∃ id, s.FileAt t c.1.file id ∧ (t.content id).stretch c.1.start c.1.length = c.2 ∧
    c.2.length = c.1.length

/-- What is in a file at one place is one thing. -/
theorem Holds.eq {c' : Chunk} (h : s.Holds t c) (h' : s.Holds t c') (hsame : c.1 = c'.1) :
    c = c' := by
  obtain ⟨id, hfile, hcontent, -⟩ := h
  obtain ⟨id', hfile', hcontent', -⟩ := h'
  obtain rfl : id' = id := (hsame ▸ hfile').unique hfile
  exact Prod.ext hsame (hcontent.symm.trans (hsame ▸ hcontent'))

/-- A chunk stays when names are added. -/
theorem Holds.extends (h : s.Holds t c) (hlayout : s'.layout = s.layout) (hextends : t.Extends t') :
    s'.Holds t' c := by
  obtain ⟨id, hfile, hcontent, hlength⟩ := h
  exact ⟨id, hfile.keeps hlayout hextends.toKeeps, (hextends.content id).symm ▸ hcontent, hlength⟩

theorem Holds.of_layout (h : s.Holds t c) (hlayout : s'.layout = s.layout) : s'.Holds t c :=
  h.extends hlayout (.refl t)

/-- A chunk stays when the resume file is written. -/
theorem Holds.resume (h : s.Holds t c) (hs : s.Housed t) (bytes : Bytes) :
    s.Holds (t.setContent s.resume bytes) c := by
  obtain ⟨id, hfile, hcontent, hlength⟩ := h
  refine ⟨id, hfile.keeps rfl (t.keeps_setContent _ _), ?_, hlength⟩
  rw [FileTree.content_setContent_of_ne (hs.ne_resume hfile.standsAt)]
  exact hcontent

/-- A chunk stays when something else is written. -/
theorem Holds.write (h : s.Holds t c) (hs : s.Housed t) {g : Segment} (hfile : s.FileAt t g.file id)
    {bytes : Bytes} (hbytes : bytes.length ≤ g.length) (hapart : g.Apart c.1) :
    s.Holds (t.writeAt id g.start bytes) c := by
  obtain ⟨id', hfile', hcontent, hlength⟩ := h
  refine ⟨id', hfile'.keeps rfl (t.keeps_setContent _ _), ?_, hlength⟩
  simp only [FileTree.writeAt]
  by_cases hid : id = id'
  · subst hid
    rw [FileTree.content_setContent_self hfile.standsAt.lt_size, Bytes.stretch_writeAt_of_apart]
    · exact hcontent
    · rw [hcontent, hlength]
    · rcases hapart (hs.file_eq hfile.standsAt hfile'.standsAt) with hle | hle
      · exact .inl (by omega)
      · exact .inr hle
  · rw [FileTree.content_setContent_of_ne hid]
    exact hcontent

/-- A chunk stays when a part of it is written once more. -/
theorem Holds.rewrite (h : s.Holds t c) (hfile : s.FileAt t c.1.file id) (n : Nat) :
    s.Holds (t.writeAt id c.1.start (c.2.take n)) c := by
  obtain ⟨id', hfile', hcontent, hlength⟩ := h
  obtain rfl : id' = id := hfile'.unique hfile
  refine ⟨id', hfile'.keeps rfl (t.keeps_setContent _ _), ?_, hlength⟩
  simp only [FileTree.writeAt]
  rw [FileTree.content_setContent_self hfile.standsAt.lt_size]
  rw [← hlength] at hcontent ⊢
  exact Bytes.stretch_writeAt_take hcontent n

/-- A chunk that is written is there. -/
theorem holds_write (hfile : s.FileAt t c.1.file id)
    (hlength : c.2.length = c.1.length) : s.Holds (t.writeAt id c.1.start c.2) c := by
  refine ⟨id, hfile.keeps rfl (t.keeps_setContent _ _), ?_, hlength⟩
  simp only [FileTree.writeAt]
  rw [FileTree.content_setContent_self hfile.standsAt.lt_size, ← hlength]
  exact Bytes.stretch_writeAt_self _ _ _

/-! ## Pieces -/

variable {i : PieceIndex} {data : Bytes} {hash : Octets 20} {left : List Chunk}

/-- The bytes of a piece are in its files, apart from the chunks that are left. -/
def Lies (s : Store) (t : FileTree) (i : PieceIndex) (data : Bytes) (left : List Chunk) : Prop :=
  ∃ gs done, s.Laid i data gs ∧ deal gs data = done ++ left ∧ ∀ c ∈ done, s.Holds t c

/-- A piece stays in its files as long as its chunks do. -/
theorem Lies.of_holds (h : s.Lies t i data left) (hlayout : s'.layout = s.layout)
    (hholds : ∀ gs, s.Laid i data gs → ∀ c ∈ deal gs data, s.Holds t c → s'.Holds t' c) :
    s'.Lies t' i data left := by
  obtain ⟨gs, done, hlaid, hdeal, hdone⟩ := h
  refine ⟨gs, done, hlaid.of_layout hlayout, hdeal, fun c hc => ?_⟩
  exact hholds gs hlaid c (hdeal ▸ List.mem_append_left _ hc) (hdone c hc)

theorem Lies.extends (h : s.Lies t i data left) (hlayout : s'.layout = s.layout)
    (hextends : t.Extends t') : s'.Lies t' i data left :=
  h.of_holds hlayout fun _ _ _ _ hc => hc.extends hlayout hextends

theorem Lies.resume (h : s.Lies t i data left) (hs : s.Housed t) (bytes : Bytes) :
    s.Lies (t.setContent s.resume bytes) i data left :=
  h.of_holds rfl fun _ _ _ _ hc => hc.resume hs bytes

/-- A piece with the right digest is in its files, apart from the chunks that are left. -/
def Placed (s : Store) (t : FileTree) (i : PieceIndex) (hash : Octets 20) (left : List Chunk) :
    Prop :=
  ∃ data, Sha1.digest data = hash ∧ s.Lies t i data left

theorem Placed.of_holds (h : s.Placed t i hash left) (hlayout : s'.layout = s.layout)
    (hholds : ∀ data gs, s.Laid i data gs → ∀ c ∈ deal gs data, s.Holds t c → s'.Holds t' c) :
    s'.Placed t' i hash left := by
  obtain ⟨data, hdigest, hlies⟩ := h
  exact ⟨data, hdigest, hlies.of_holds hlayout (hholds data)⟩

theorem Placed.extends (h : s.Placed t i hash left) (hlayout : s'.layout = s.layout)
    (hextends : t.Extends t') : s'.Placed t' i hash left :=
  h.of_holds hlayout fun _ _ _ _ _ hc => hc.extends hlayout hextends

end Store

/-! ## Writing -/

namespace Writing

variable {w w' : Writing} {s s' : Store} {t t' : FileTree} {fault : Option Fault}
  {i j : PieceIndex} {data : Bytes} {hash : Octets 20}

/-- The writing of these bytes has placed what it has behind it. -/
def Carries (s : Store) (t : FileTree) (i : PieceIndex) (data : Bytes) : Writing → Prop
  | .placing j left => j = i ∧ s.Lies t i data left
  | .opened j id left =>
    j = i ∧ s.Lies t i data left ∧ ∀ c rest, left = c :: rest → s.FileAt t c.1.file id
  | .marking j => j = i ∧ s.Lies t i data []
  | .saving _ | .cutting _ _ | .finished (.ok ()) => s.Lies t i data []
  | .finished (.error _) => True

theorem carries_write (s : Store) (t : FileTree) (i : PieceIndex) (data : Bytes) :
    (s.write i data).Carries s t i data := by
  rcases write_cases s i data with ⟨e, hwrite⟩ | ⟨left, hwrite⟩
  · rw [hwrite]
    trivial
  · rw [hwrite]
    obtain ⟨-, gs, hlaid, rfl⟩ := Store.laid_of_write hwrite
    exact ⟨rfl, gs, [], hlaid, rfl, nofun⟩

/-- The chunk that is placed next is one of the piece. -/
theorem Carries.of_placing {c : Chunk} {rest : List Chunk}
    (h : (Writing.placing j (c :: rest)).Carries s t i data) :
    ∃ gs, s.Laid i data gs ∧ c ∈ deal gs data := by
  obtain ⟨-, gs, done, hlaid, hdeal, -⟩ := h
  exact ⟨gs, hlaid, hdeal ▸ List.mem_append_right _ (List.mem_cons_self ..)⟩

/-- The chunk that is written next is one of the piece, and it goes to its file. -/
theorem Carries.of_opened {id : FileId} {c : Chunk} {rest : List Chunk}
    (h : (Writing.opened j id (c :: rest)).Carries s t i data) :
    (∃ gs, s.Laid i data gs ∧ c ∈ deal gs data) ∧ s.FileAt t c.1.file id :=
  ⟨Carries.of_placing (j := j) ⟨h.1, h.2.1⟩, h.2.2 c rest rfl⟩

theorem Carries.of_next {c : Chunk} (h : w.Carries s t i data) (hnext : w.next? = some c) :
    ∃ gs, s.Laid i data gs ∧ c ∈ deal gs data := by
  simp only [next?] at hnext
  split at hnext
  next =>
    cases hnext
    exact h.of_opened.1
  next => cases hnext

/-- The writing of a piece goes on as long as the chunks of the piece stay. -/
theorem Carries.of_holds (h : w.Carries s t i data) (hlayout : s'.layout = s.layout)
    (hkeeps : t.Keeps t')
    (hholds : ∀ gs, s.Laid i data gs → ∀ c ∈ deal gs data, s.Holds t c → s'.Holds t' c) :
    w.Carries s' t' i data := by
  cases w with
  | placing k left => exact ⟨h.1, h.2.of_holds hlayout hholds⟩
  | opened k id left =>
      exact ⟨h.1, h.2.1.of_holds hlayout hholds,
        fun c rest hleft => (h.2.2 c rest hleft).keeps hlayout hkeeps⟩
  | marking k => exact ⟨h.1, h.2.of_holds hlayout hholds⟩
  | saving bitmap => exact Store.Lies.of_holds h hlayout hholds
  | cutting n failure => exact Store.Lies.of_holds h hlayout hholds
  | finished result =>
      cases result with
      | ok u => exact Store.Lies.of_holds h hlayout hholds
      | error e => trivial

/-- The writing of a piece with the right digest has placed what it has behind it. -/
def Sound (s : Store) (t : FileTree) (i : PieceIndex) (hash : Octets 20) (w : Writing) : Prop :=
  ∃ data, Sha1.digest data = hash ∧ w.Carries s t i data

theorem sound_write (s : Store) (t : FileTree) (i : PieceIndex) (data : Bytes) :
    (s.write i data).Sound s t i (Sha1.digest data) :=
  ⟨data, rfl, carries_write s t i data⟩

theorem Sound.of_holds (h : w.Sound s t i hash) (hlayout : s'.layout = s.layout)
    (hkeeps : t.Keeps t')
    (hholds : ∀ data gs, s.Laid i data gs → ∀ c ∈ deal gs data, s.Holds t c → s'.Holds t' c) :
    w.Sound s' t' i hash := by
  obtain ⟨data, hdigest, hcarries⟩ := h
  exact ⟨data, hdigest, hcarries.of_holds hlayout hkeeps (hholds data)⟩

/-- Writing leaves every name where it is. -/
theorem Effect.keeps (h : Effect fault s t w w' s' t') (hs : s.Handles t) : t.Keeps t' := by
  cases h with
  | opening hopen => exact (Store.openSlot_spec hs hopen).1.toKeeps
  | unopened hopen => exact (Store.openSlot_spec hs hopen).1.toKeeps
  | written => exact t.keeps_setContent _ _
  | torn => exact t.keeps_setContent _ _
  | saved => exact t.keeps_setContent _ _
  | closed => exact t.keeps_setContent _ _
  | spoiled hfailure ht =>
      rcases ht with rfl | rfl
      · exact .refl _
      · exact t.keeps_setContent _ _
  | _ => exact .refl t

/-- A store stays settled whatever is written. -/
theorem Effect.settled (h : Effect fault s t w w' s' t') (hs : s.Settled t) : s'.Settled t' := by
  cases h with
  | opening hopen => exact hs.openSlot hopen
  | unopened hopen => exact hs.openSlot hopen
  | written => exact hs.setContent _ _
  | torn => exact hs.setContent _ _
  | marked => exact hs.of_layout rfl hs.handles
  | saved => exact hs.setContent _ _
  | closed n =>
      have hset := hs.setContent s.resume ((t.content s.resume).resize n)
      exact hset.of_layout rfl hset.handles
  | @spoiled n failure e t' hfailure ht =>
      rcases ht with rfl | rfl
      · exact hs.of_layout rfl hs.handles
      · have hset := hs.setContent s.resume ((t.content s.resume).resize n)
        exact hset.of_layout rfl hset.handles
  | _ => exact hs

theorem Effect.housed (h : Effect fault s t w w' s' t') (hs : s.Housed t) : s'.Housed t' :=
  hs.keeps h.grows.layout (h.keeps hs.handles) (h.settled hs.toSettled)

/-- What a step of writing a piece does to the files of its store. -/
inductive Touch (s : Store) (t : FileTree) (i : PieceIndex) (data : Bytes) (w : Writing) :
    Store → FileTree → Prop
  | stays {s' : Store} (hlayout : s'.layout = s.layout) : Touch s t i data w s' t
  | opens {gs : List Segment} {g : Segment} {result : Except IoError FileId} {s' : Store}
    {t' : FileTree} (hlaid : s.Laid i data gs) (hg : g ∈ gs)
    (hopen : s.openSlot t g.file = (result, s', t')) : Touch s t i data w s' t'
  /-- A chunk is written, or a part of one. -/
  | writes {gs : List Segment} {c : Chunk} {id : FileId} (n : Nat) (hlaid : s.Laid i data gs)
    (hc : c ∈ deal gs data) (hfile : s.FileAt t c.1.file id) (hnext : w.next? = some c) :
    Touch s t i data w s (t.writeAt id c.1.start (c.2.take n))
  /-- The resume file is written or cut. -/
  | resumes {s' : Store} (bytes : Bytes) (hlayout : s'.layout = s.layout) :
    Touch s t i data w s' (t.setContent s.resume bytes)

theorem Effect.touch (h : Effect fault s t w w' s' t') (hw : w.Carries s t i data) :
    Touch s t i data w s' t' := by
  cases h with
  | opening hopen =>
      obtain ⟨gs, hlaid, hmem⟩ := hw.of_placing
      exact .opens hlaid (mem_of_mem_deal hmem) hopen
  | unopened hopen =>
      obtain ⟨gs, hlaid, hmem⟩ := hw.of_placing
      exact .opens hlaid (mem_of_mem_deal hmem) hopen
  | written k id g bytes rest =>
      obtain ⟨⟨gs, hlaid, hmem⟩, hfile⟩ := hw.of_opened
      have hall : Touch s t i data (.opened k id ((g, bytes) :: rest)) s
        (t.writeAt id g.start (bytes.take bytes.length)) := .writes _ hlaid hmem hfile rfl
      rwa [List.take_length] at hall
  | torn k id g bytes rest n e =>
      obtain ⟨⟨gs, hlaid, hmem⟩, hfile⟩ := hw.of_opened
      exact .writes n hlaid hmem hfile rfl
  | saved => exact .resumes _ rfl
  | closed => exact .resumes _ rfl
  | spoiled hfailure ht =>
      rcases ht with rfl | rfl
      · exact .stays rfl
      · exact .resumes _ rfl
  | _ => exact .stays rfl

/-- A step of writing one piece leaves alone what is apart from that piece, or is a part of it
already.  Where nothing is about to be written, it leaves all pieces alone. -/
theorem Effect.holds {c : Chunk} (h : Effect fault s t w w' s' t') (hs : s.Housed t)
    (hw : w.Carries s t i data)
    (hapart : ∀ c', w.next? = some c' → c' = c ∨ c'.1.Apart c.1)
    (hc : s.Holds t c) : s'.Holds t' c := by
  cases h.touch hw with
  | stays hlayout => exact hc.of_layout hlayout
  | opens hlaid hg hopen =>
      exact hc.extends (Store.openSlot_store hopen).1 (Store.openSlot_spec hs.handles hopen).1
  | writes n hlaid hmem hfile hnext =>
      rcases hapart _ hnext with rfl | hapart
      · exact hc.rewrite hfile n
      · exact hc.write hs hfile (hlaid.length_take_le hmem n) hapart
  | resumes bytes hlayout => exact (hc.resume hs bytes).of_layout hlayout

/-- A step of writing leaves the chunks of every piece alone, if it writes no other bytes for that
piece. -/
theorem Effect.holds_of_agree {d : Descriptor} {data' : Bytes} {gs : List Segment} {c : Chunk}
    (h : Effect fault s t w w' s' t') (hs : s.Housed t) (hfits : s.Fits d) (hd : d.Sound)
    (hw : w.Carries s t i data) (hagree : i = j → data' = data)
    (hlaid : s.Laid j data' gs) (hmem : c ∈ deal gs data') (hc : s.Holds t c) : s'.Holds t' c := by
  refine h.holds hs hw (fun c' hnext => ?_) hc
  obtain ⟨gs', hlaid', hc'⟩ := hw.of_next hnext
  by_cases hij : i = j
  · obtain rfl := hagree hij
    subst hij
    obtain rfl := hlaid.unique hlaid'
    exact hlaid.eq_or_apart hc' hmem
  · exact .inr (hlaid'.apart hlaid hfits hd hij (mem_of_mem_deal hc') (mem_of_mem_deal hmem))

/-- A step of writing leaves the chunks of every piece alone, if what it writes of that piece is
there already. -/
theorem Effect.holds_of_held {d : Descriptor} {data' : Bytes} {gs : List Segment} {c : Chunk}
    (h : Effect fault s t w w' s' t') (hs : s.Housed t) (hfits : s.Fits d) (hd : d.Sound)
    (hw : w.Carries s t i data) (hheld : i = j → ∀ c', w.next? = some c' → s.Holds t c')
    (hlaid : s.Laid j data' gs) (hmem : c ∈ deal gs data') (hc : s.Holds t c) : s'.Holds t' c := by
  refine h.holds hs hw (fun c' hnext => ?_) hc
  obtain ⟨gs', hlaid', hc'⟩ := hw.of_next hnext
  by_cases hij : i = j
  · subst hij
    obtain rfl := hlaid.unique hlaid'
    have hapart := hlaid.segment_eq_or_apart (mem_of_mem_deal hc') (mem_of_mem_deal hmem)
    exact hapart.imp_left ((hheld rfl c' hnext).eq hc)
  · exact .inr (hlaid'.apart hlaid hfits hd hij (mem_of_mem_deal hc') (mem_of_mem_deal hmem))

/-- A step of writing brings its own piece on. -/
theorem Effect.carries (h : Effect fault s t w w' s' t') (hs : s.Housed t)
    (hw : w.Carries s t i data) : w'.Carries s' t' i data := by
  cases h with
  | opening hopen =>
      obtain ⟨hextends, -, hfile⟩ := Store.openSlot_spec hs.handles hopen
      refine ⟨hw.1, hw.2.extends (Store.openSlot_store hopen).1 hextends, ?_⟩
      intro c rest hleft
      cases hleft
      exact hfile _ rfl
  | idle => exact ⟨hw.1, hw.2.1⟩
  | written k id g bytes rest =>
      obtain ⟨hindex, ⟨gs, done, hlaid, hdeal, hdone⟩, hfile⟩ := hw
      have hfile := hfile _ _ rfl
      have hmem : (g, bytes) ∈ deal gs data := by
        rw [hdeal]
        exact List.mem_append_right _ (List.mem_cons_self ..)
      have hlength := hlaid.length_of_mem hmem
      refine ⟨hindex, gs, done ++ [(g, bytes)], hlaid, ?_, fun c hc => ?_⟩
      · rw [hdeal, List.append_assoc, List.singleton_append]
      · rcases List.mem_append.1 hc with hc | hc
        · refine (hdone c hc).write hs hfile (Nat.le_of_eq hlength) ?_
          have hpairwise := hlaid.pairwise
          rw [← fst_deal gs data, hdeal, List.map_append, List.map_cons] at hpairwise
          have hapart := (List.pairwise_append.1 hpairwise).2.2 c.1 (List.mem_map_of_mem hc) g
            (List.mem_cons_self ..)
          exact fun heq => (hapart heq.symm).symm
        · obtain rfl := List.mem_singleton.1 hc
          exact Store.holds_write hfile hlength
  | placed => exact hw
  | waited => exact hw
  | marked => exact hw.2.extends rfl (.refl t)
  | saved => exact Store.Lies.resume hw hs _
  | closed => exact (Store.Lies.resume hw hs _).extends rfl (.refl _)
  | ended => exact hw
  | _ => trivial

theorem Effect.sound (h : Effect fault s t w w' s' t') (hs : s.Housed t)
    (hw : w.Sound s t i hash) : w'.Sound s' t' i hash := by
  obtain ⟨data, hdigest, hcarries⟩ := hw
  exact ⟨data, hdigest, h.carries hs hcarries⟩

/-- When the bit of a piece is set, the piece is in its files. -/
theorem Effect.placed_of_marked (h : Effect fault s t w w' s' t') (hw : w.Sound s t i hash)
    (hbefore : w = .marking i) (hlayout : s'.layout = s.layout) : s'.Placed t' i hash [] := by
  obtain ⟨data, hdigest, hcarries⟩ := hw
  subst hbefore
  refine ⟨data, hdigest, ?_⟩
  cases h with
  | waited => exact hcarries.2
  | marked => exact hcarries.2.extends hlayout (.refl t)

end Writing

end Torrent
