import Torrent.Download
import Torrent.Proofs.Swarm.Persistence

/-!
# Progress over several downloads

A download that was given up or failed is called again on the same directory, as
often as one likes, with other peers and at other times (`Download.Visit`).  What it
has reached is in the resume file: an open that follows finds every piece that an
earlier one found, and every piece that was stored without a failure since
(`Download.progress_kept`).

Between two visits only the files count, so the invariant is about a tree: a piece is
noted in it (`FileTree.Notes`).  A visit keeps what is noted wherever it is cut off
(`Download.Visit.left_spec`).
-/

namespace Torrent

/-- The file at a path has the bit of a piece, taken as the bitmap of so many. -/
def FileTree.Notes (t : FileTree) (path : List Char) (n : Nat) (i : PieceIndex) : Prop :=
  ∃ id, t.entryAt (t.place path) = some (.file id) ∧
    (Store.bitmapOf (t.content id) n).has i = true

theorem FileTree.Notes.extends {t t' : FileTree} {path : List Char} {n : Nat} {i : PieceIndex}
    (h : t.Notes path n i) (hextends : t.Extends t') : t'.Notes path n i := by
  obtain ⟨id, hentry, hbit⟩ := h
  refine ⟨id, ?_, (hextends.content id).symm ▸ hbit⟩
  rw [hextends.toKeeps.place_eq]
  exact hextends.toKeeps.entries _ _ hentry

namespace Store

variable {s : Store} {t t' : FileTree} {root name : List Char} {d : Descriptor} {i : PieceIndex}

/-- Opening a store changes no file that is there, also where it fails. -/
theorem open_extends {result : Except StorageError Store}
    (hopen : open_ t root d name = (result, t')) :
    t.Extends t' := by
  unfold open_ at hopen
  split at hopen
  next hmade =>
    cases hopen
    exact (FileTree.makeDirectoriesWithin_spec hmade).1.extends
  next hmade =>
    have hfurnished := (FileTree.makeDirectoriesWithin_spec hmade).1
    dsimp only at hopen
    split at hopen
    next =>
      cases hopen
      exact hfurnished.extends
    next hfile =>
      cases hopen
      exact hfurnished.extends.trans (FileTree.openFile_spec hfile).1

theorem placesOf_of_keeps (hkeeps : t.Keeps t') (root name : List Char) (d : Descriptor) :
    placesOf t' root name d = placesOf t root name d := by
  simp only [placesOf]
  rw [show t'.place = t.place from funext hkeeps.place_eq]

/-- What is noted in the resume file is found. -/
theorem hasPiece_of_notes (hopen : open_ t root d name = (.ok s, t'))
    (hnotes : t.Notes (Path.join root name) d.pieceCount i) : s.hasPiece i = true := by
  obtain ⟨id, hentry, hbit⟩ := hnotes.extends (open_extends hopen)
  have hleads := (open_spec hopen).2.1.entry
  rw [resumePath_open hopen, hentry] at hleads
  cases hleads
  simp only [hasPiece]
  rw [completed_open hopen]
  exact hbit

end Store

namespace Download

variable {d : Descriptor} {tree tree' : FileTree} {root name : List Char} {i : PieceIndex}

/-- A download that begins has opened its store. -/
theorem start_eq_ok {peers : List PeerRecord} {settings : Settings} {random : Bytes} {now : Nat}
    {w : Swarm} (h : start tree peers d root settings random now = (.ok w, tree')) :
    ∃ s set, Store.open_ tree root d settings.resumeFileName.toList = (.ok s, tree') ∧
      w = (Swarm.seed d s tree' set settings (localId settings random)).begin_ now none := by
  simp only [start] at h
  split at h
  next => cases h
  next =>
    split at h
    next => cases h
    next hopen =>
      cases h
      simp only [open_] at hopen
      split at hopen
      next => cases hopen
      next hstore =>
        cases hopen
        exact ⟨_, _, hstore, rfl⟩

/-- A download that does not begin changes no file. -/
theorem start_eq_error {peers : List PeerRecord} {settings : Settings} {random : Bytes} {now : Nat}
    {e : TorrentError} (h : start tree peers d root settings random now = (.error e, tree')) :
    tree.Extends tree' := by
  simp only [start] at h
  split at h
  next =>
    cases h
    exact .refl _
  next =>
    split at h
    next hopen =>
      cases h
      simp only [open_] at hopen
      split at hopen
      next hstore =>
        cases hopen
        exact Store.open_extends hstore
      next => cases hopen
    next => cases h

/-! ## Visits -/

/-- A download called on a directory: whom it may ask, how and when, and what happens to it until it
ends or is cut off. -/
structure Visit where
  peers : List PeerRecord
  settings : Settings
  random : Bytes
  now : Nat
  events : List Event

/-- The download as it begins, and the files behind its opening. -/
def Visit.start (v : Visit) (d : Descriptor) (root : List Char) (tree : FileTree) :
    Except TorrentError Swarm × FileTree :=
  Download.start tree v.peers d root v.settings v.random v.now

/-- The files that a visit leaves behind. -/
def Visit.left (v : Visit) (d : Descriptor) (root : List Char) (tree : FileTree) : FileTree :=
  match v.start d root tree with
  | (.error _, tree) => tree
  | (.ok w, _) => (w.run v.events).tree

/-- The files that visits leave behind one after the other. -/
def leftBy (visits : List Visit) (d : Descriptor) (root : List Char) (tree : FileTree) : FileTree :=
  visits.foldl (fun tree v => v.left d root tree) tree

/-- The files of the torrent and the resume file are at different places. -/
def Sited (d : Descriptor) (root name : List Char) (tree : FileTree) : Prop :=
  (Store.placesOf tree root name d).Nodup

theorem Sited.keeps (h : Sited d root name tree) (hkeeps : tree.Keeps tree') :
    Sited d root name tree' := by
  simp only [Sited]
  rw [Store.placesOf_of_keeps hkeeps]
  exact h

/-! ## One visit -/

/-- A download that has just begun in a directory, with these pieces to fetch. -/
structure Begun (d : Descriptor) (root name : List Char) (tree : FileTree) (pieces : List PieceSpec)
    (w : Swarm) : Prop where
  persistent : w.Persistent d pieces
  lt : ∀ spec ∈ pieces, spec.index.toNat < d.pieceCount
  lacking : ∀ spec ∈ pieces, w.store.hasPiece spec.index = false
  kept : ∀ i, w.store.hasPiece i = true → w.Kept d i
  found : ∀ i, tree.Notes (Path.join root name) d.pieceCount i → w.store.hasPiece i = true
  keeps : tree.Keeps w.tree
  resumePath : w.store.resumePath = Path.join root name
  places : w.store.places w.tree = Store.placesOf tree root name d

theorem begun_of_start {v : Visit} {w : Swarm} (hsited : Sited d root name tree)
    (hname : v.settings.resumeFileName.toList = name)
    (hstart : v.start d root tree = (.ok w, tree')) :
    ∃ pieces, Begun d root name tree pieces w := by
  obtain ⟨s, set, hopen, rfl⟩ := start_eq_ok hstart
  rw [hname] at hopen
  obtain ⟨hpersistent, hkept⟩ := Swarm.persistent_begin hopen hsited set
    v.settings (localId v.settings v.random) v.now none
  obtain ⟨htree, hstore⟩ := Swarm.begin_store
    (.seed d s tree' set v.settings (localId v.settings v.random)) v.now none
  generalize (Swarm.seed d s tree' set v.settings (localId v.settings v.random)).begin_ v.now none
    = w at hpersistent hkept htree hstore ⊢
  have hsame : w.store.layout = s.layout ∧ w.store.completed = s.completed := by
    rcases hstore with hstore | hstore
    · exact ⟨congrArg Store.layout hstore, congrArg Store.completed hstore⟩
    · exact ⟨(congrArg Store.layout hstore).trans s.layout_close,
        (congrArg Store.completed hstore).trans rfl⟩
  have hbits : ∀ i, w.store.hasPiece i = s.hasPiece i := fun i =>
    congrArg (fun b : Bitfield => b.has i) hsame.2
  refine ⟨Swarm.missing d s, hpersistent, fun spec hspec => Swarm.index_lt_of_mem_missing hspec,
    fun spec hspec => ?_, hkept, fun i hnotes => ?_, ?_, ?_, ?_⟩
  · rw [hbits]
    exact (Swarm.mem_missing.1 hspec).2.1
  · rw [hbits]
    exact Store.hasPiece_of_notes hopen hnotes
  · rw [htree]
    exact (Store.open_extends hopen).toKeeps
  · rw [Store.resumePath_of_layout hsame.1]
    obtain ⟨-, -, -, -, rfl⟩ := Store.open_eq hopen
    rfl
  · rw [htree]
    exact (Store.places_eq hsame.1 (.refl _)).trans (Store.places_open hopen)

namespace Begun

variable {pieces : List PieceSpec} {w : Swarm}

/-- Wherever a download is cut off, its files are still at their different places. -/
theorem sited_run (h : Begun d root name tree pieces w) (events : List Event) :
    Sited d root name (w.run events).tree := by
  obtain ⟨-, hkeeps⟩ := h.persistent.run h.lt events
  have hnodup := h.persistent.recording.housed.nodup
  rw [h.places] at hnodup
  exact Sited.keeps hnodup (h.keeps.trans hkeeps)

/-- What is kept where a download is cut off is noted. -/
theorem notes_run (h : Begun d root name tree pieces w) (events : List Event)
    (hkept : (w.run events).Kept d i) :
    (w.run events).tree.Notes (Path.join root name) d.pieceCount i := by
  have hleads := (h.persistent.run h.lt events).1.recording.housed.resume
  rw [Store.resumePath_of_layout (Swarm.grows_run w events).layout, h.resumePath] at hleads
  exact ⟨_, hleads, hkept.2⟩

/-- A piece that was found when the download began neither waits nor is held. -/
theorem index_ne (h : Begun d root name tree pieces w) (hi : w.store.hasPiece i = true)
    (events : List Event) {spec : PieceSpec} (hspec : spec ∈ (w.run events).outstanding) :
    spec.index ≠ i := by
  rintro rfl
  have hlacking := h.lacking spec ((h.persistent.run h.lt events).1.ledger.known hspec)
  rw [hi] at hlacking
  cases hlacking

end Begun

/-- A visit keeps what is noted, and that the files are at different places, whether it begins or
not. -/
theorem Visit.left_spec (v : Visit) (hsited : Sited d root name tree)
    (hname : v.settings.resumeFileName.toList = name) :
    Sited d root name (v.left d root tree) ∧
      ∀ i, tree.Notes (Path.join root name) d.pieceCount i →
        (v.left d root tree).Notes (Path.join root name) d.pieceCount i := by
  simp only [left]
  split
  next hstart =>
    have hextends := start_eq_error hstart
    exact ⟨hsited.keeps hextends.toKeeps, fun i hnotes => hnotes.extends hextends⟩
  next w _ hstart =>
    obtain ⟨pieces, hbegun⟩ := begun_of_start hsited hname hstart
    refine ⟨hbegun.sited_run v.events, fun i hnotes => hbegun.notes_run v.events ?_⟩
    exact hbegun.persistent.kept_run hbegun.lt (hbegun.kept i (hbegun.found i hnotes)) v.events

/-! ## Many visits -/

theorem leftBy_append (before after : List Visit) (d : Descriptor) (root : List Char)
    (tree : FileTree) :
    leftBy (before ++ after) d root tree = leftBy after d root (leftBy before d root tree) :=
  List.foldl_append ..

theorem leftBy_cons (v : Visit) (rest : List Visit) (d : Descriptor) (root : List Char)
    (tree : FileTree) :
    leftBy (v :: rest) d root tree = leftBy rest d root (v.left d root tree) :=
  rfl

/-- Any number of visits keeps what is noted. -/
theorem leftBy_spec (visits : List Visit) (hsited : Sited d root name tree)
    (hname : ∀ v ∈ visits, v.settings.resumeFileName.toList = name) :
    Sited d root name (leftBy visits d root tree) ∧
      ∀ i, tree.Notes (Path.join root name) d.pieceCount i →
        (leftBy visits d root tree).Notes (Path.join root name) d.pieceCount i := by
  induction visits generalizing tree with
  | nil => exact ⟨hsited, fun _ hnotes => hnotes⟩
  | cons v rest ih =>
      obtain ⟨hleft, hkept⟩ := v.left_spec hsited (hname v (List.mem_cons_self ..))
      obtain ⟨hlast, hrest⟩ := ih hleft fun u hu => hname u (List.mem_cons_of_mem _ hu)
      exact ⟨hlast, fun i hnotes => hrest i (hkept i hnotes)⟩

/-- Nothing that was reached is lost, however often a download is called on a directory, whatever
the peers do and wherever writing fails or a download is cut off.  What an open finds contains what
each earlier one found, and each piece whose writing ended without a failure since; and a download
never asks for a piece that it found, nor writes it again. -/
theorem progress_kept {tree t t' : FileTree} {root name : List Char}
    (hplaces : (Store.placesOf tree root name d).Nodup) (before between : List Visit)
    (v v' : Visit)
    (hname : ∀ u ∈ before ++ v :: between ++ [v'], u.settings.resumeFileName.toList = name)
    {w w' : Swarm} (hstart : v.start d root (leftBy before d root tree) = (.ok w, t))
    (hstart' : v'.start d root (leftBy (before ++ v :: between) d root tree) = (.ok w', t')) :
    (∀ i, w.store.hasPiece i = true → w'.store.hasPiece i = true) ∧
    (∀ front back k i, v.events = front ++ back → (w.run front).Stored k i →
      w'.store.hasPiece i = true) ∧
    ∀ i, w'.store.hasPiece i = true → ∀ events,
      (∀ spec ∈ (w'.run events).queue.pending, spec.index ≠ i) ∧
      ∀ u ∈ (w'.run events).tasks, ∀ spec, u.claim? = some spec ∨
        (∃ writing, u.phase.writing? = some (spec, writing)) → spec.index ≠ i := by
  have hnamed : ∀ u ∈ before, u.settings.resumeFileName.toList = name := fun u hu =>
    hname u (by simp [hu])
  have hbetween : ∀ u ∈ between, u.settings.resumeFileName.toList = name := fun u hu =>
    hname u (by simp [hu])
  obtain ⟨hsited, -⟩ := leftBy_spec before hplaces hnamed
  obtain ⟨pieces, hbegun⟩ := begun_of_start hsited (hname v (by simp)) hstart
  have hleft : v.left d root (leftBy before d root tree) = (w.run v.events).tree := by
    simp only [Visit.left]
    rw [hstart]
  obtain ⟨hsited', hnotes⟩ := leftBy_spec between (hbegun.sited_run v.events) hbetween
  rw [leftBy_append, leftBy_cons, hleft] at hstart'
  obtain ⟨pieces', hbegun'⟩ := begun_of_start hsited' (hname v' (by simp)) hstart'
  -- what is kept at some moment of the first visit is noted when it is left
  have hfound : ∀ front back i, v.events = front ++ back → (w.run front).Kept d i →
      w'.store.hasPiece i = true := by
    intro front back i hevents hkept
    obtain ⟨hpersistent, -⟩ := hbegun.persistent.run hbegun.lt front
    have hlast := hpersistent.kept_run hbegun.lt hkept back
    rw [← Swarm.run_append, ← hevents] at hlast
    exact hbegun'.found i (hnotes i (hbegun.notes_run v.events hlast))
  refine ⟨fun i hi => ?_, fun front back k i hevents hstored => ?_, fun i hi events => ⟨?_, ?_⟩⟩
  · exact hfound [] v.events i rfl (hbegun.kept i hi)
  · obtain ⟨hpersistent, -⟩ := hbegun.persistent.run hbegun.lt front
    exact hfound front back i hevents (hpersistent.of_stored hstored)
  · exact fun spec hspec => hbegun'.index_ne hi events (List.mem_append_left _ hspec)
  · rintro u hu spec hheld
    have hclaim : u.phase.claim? = some spec := by
      rcases hheld with hclaim | ⟨writing, hwriting⟩
      · exact u.claim?_eq.symm.trans hclaim
      · exact Phase.claim?_of_writing? hwriting
    exact hbegun'.index_ne hi events (Swarm.Ledger.claim_mem_outstanding hu hclaim)

/-- The download as it begins, if it does. -/
def Visit.begun? (v : Visit) (d : Descriptor) (root : List Char) (tree : FileTree) : Option Swarm :=
  (v.start d root tree).1.toOption

theorem Visit.begun?_eq_some_iff {v : Visit} {w : Swarm} :
    v.begun? d root tree = some w ↔ ∃ tree', v.start d root tree = (.ok w, tree') := by
  simp only [begun?]
  rcases v.start d root tree with ⟨_ | w', tree'⟩ <;> simp [Except.toOption]

/-- The disk is full when a second visit writes the bitmap for its piece.  A third one still finds
what the first one stored, and not the piece of the second. -/
theorem progress_kept_full_disk :
    let d : Descriptor :=
      ⟨⟨.zero 20⟩, 2, 1, [Sha1.digest [97], Sha1.digest [98]], [⟨"a", 2⟩]⟩
    let heard (i : PieceIndex) (data : Bytes) :=
      (Handshake.ours ⟨.zero 20⟩ ⟨.zero 20⟩).encode ++ Frame.encode (.bitfield [0xC0]) ++
        Frame.encode .unchoke ++ Frame.encode (.piece i 0 data)
    let visit (events : List Event) : Visit :=
      ⟨[⟨⟨.short ⟨127, 0, 0, 1⟩, 1⟩, none⟩], .standard, [], 0, events⟩
    let first := visit ([.reached 0 0 none, .arrived 0 (heard 0 [97])] ++
      List.replicate 16 (.proceeded 0 0 none))
    let second := visit ([.reached 0 0 none, .arrived 0 (heard 1 [98])] ++
      List.replicate 14 (.proceeded 0 0 none) ++
      [.proceeded 0 0 (some ⟨0, .other "disk full"⟩), .proceeded 0 0 none])
    let name := Settings.standard.resumeFileName.toList
    (Store.placesOf (.empty []) ['t'] name d).Nodup ∧
      ∃ w t w' t', first.start d ['t'] (.empty []) = (.ok w, t) ∧
        (visit []).start d ['t'] (leftBy [first, second] d ['t'] (.empty [])) = (.ok w', t') ∧
        (w.run first.events).Stored 0 0 ∧
        w'.store.hasPiece 0 = true ∧ w'.store.hasPiece 1 = false ∧
        ∀ events, ∀ spec ∈ (w'.run events).queue.pending, spec.index ≠ 0 := by
  intro d heard visit first second name
  have hfirst : (first.begun? d ['t'] (.empty [])).map (fun w =>
      decide ((w.run first.events).Stored 0 0)) = some true := by
    decide +kernel
  have hlast : ((visit []).begun? d ['t'] (leftBy [first, second] d ['t'] (.empty []))).map
      (·.store.hasPiece 1) = some false := by
    decide +kernel
  obtain ⟨w, hw, hstored⟩ := Option.map_eq_some_iff.1 hfirst
  obtain ⟨w', hw', hlacks⟩ := Option.map_eq_some_iff.1 hlast
  obtain ⟨t, hstart⟩ := Visit.begun?_eq_some_iff.1 hw
  obtain ⟨t', hstart'⟩ := Visit.begun?_eq_some_iff.1 hw'
  have hplaces : (Store.placesOf (.empty []) ['t'] name d).Nodup := by decide
  obtain ⟨-, hfound, hnever⟩ := progress_kept hplaces [] [second] first (visit [])
    (by decide) hstart hstart'
  have hpiece := hfound first.events [] 0 0 (List.append_nil _).symm (of_decide_eq_true hstored)
  exact ⟨hplaces, w, t, w', t', hstart, hstart', of_decide_eq_true hstored, hpiece,
    hlacks, fun events => (hnever 0 hpiece events).1⟩

end Download

end Torrent
