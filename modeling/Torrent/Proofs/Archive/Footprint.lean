import Torrent.Proofs.Archive.Lock
import Torrent.Proofs.Archive.Manned
import Torrent.Proofs.Files.Location
import Torrent.Proofs.Store.Trimmed

/-!
# What writing touches

An accepted description does not promise that its files are at different locations:
two spellings of one path are accepted, and then one piece is written over another
(`Archive.accepted_paths_collide`).  What is promised is that every location is the
directory followed by the names of the path, so that collisions can be read off the
names.

Where the names differ, no write goes astray (`Archive.accepted_locations`): a step
of writing changes the content of one file at most (`Writing.Effect.content`), and
this is the file of its segment, or the resume file while it is rewritten.
-/

namespace Torrent

open FileTree (way)

/-! ## Collisions -/

/-- The paths of a download, that of the resume file first. -/
def Descriptor.paths (d : Descriptor) (name : List Char) : List (List Char) :=
  name :: d.files.map fun file => file.path.toList

namespace Descriptor

variable {d : Descriptor} {name : List Char}

theorem isContained_of_mem_paths (hcheck : d.check = .ok ())
    (hname : Path.isContained name = true) {path : List Char} (h : path ∈ d.paths name) :
    Path.isContained path = true := by
  rcases List.mem_cons.1 h with rfl | h
  · exact hname
  · obtain ⟨file, hfile, rfl⟩ := List.mem_map.1 h
    exact isContained_of_check hcheck file hfile

theorem placesOf_eq (t : FileTree) (root : List Char) :
    Store.placesOf t root name d =
      (d.paths name).map fun path => t.place (Path.join root path) := by
  simp only [Store.placesOf, paths]
  rw [List.map_cons, List.map_map]
  rfl

/-- Paths with different names are at different places. -/
theorem nodup_placesOf (hcheck : d.check = .ok ()) (hname : Path.isContained name = true)
    (hnodup : ((d.paths name).map way).Nodup) (t : FileTree) (root : List Char) :
    (Store.placesOf t root name d).Nodup := by
  have hways : (d.paths name).map (fun path => t.place (Path.join root path)) =
      ((d.paths name).map way).map (t.place root ++ ·) := by
    rw [List.map_map]
    exact List.map_congr_left fun path hpath =>
      FileTree.place_join (isContained_of_mem_paths hcheck hname hpath)
  rw [placesOf_eq, hways]
  exact List.Pairwise.map _ (fun _ _ hne heq => hne (List.append_cancel_left heq)) hnodup

end Descriptor

/-! ## The footprint of a step -/

/-- A step of writing changes the content of one file at most: the one that is open, at the segment
that comes next, or the resume file while it is rewritten. -/
theorem Writing.Effect.content {fault : Option Fault} {s s' : Store} {t t' : FileTree}
    {w w' : Writing} (h : Effect fault s t w w' s' t') (hs : s.Handles t) (id : FileId) :
    t'.content id = t.content id ∨
      (∃ i g bytes rest n, w = .opened i id ((g, bytes) :: rest) ∧
        t' = t.writeAt id g.start (bytes.take n)) ∨
      (w.isRewriting = true ∧ id = s.resume) := by
  have hresume : ∀ bytes, (t.setContent s.resume bytes).content id = t.content id ∨
      id = s.resume := by
    intro bytes
    by_cases hid : s.resume = id
    · exact .inr hid.symm
    · exact .inl (FileTree.content_setContent_of_ne hid bytes)
  cases h with
  | opening hopen => exact .inl ((Store.openSlot_spec hs hopen).1.content id)
  | unopened hopen => exact .inl ((Store.openSlot_spec hs hopen).1.content id)
  | written i file g bytes rest =>
      by_cases hid : file = id
      · subst hid
        refine .inr (.inl ⟨i, g, bytes, rest, bytes.length, rfl, ?_⟩)
        rw [List.take_length]
      · exact .inl (FileTree.content_setContent_of_ne hid _)
  | torn i file g bytes rest n e =>
      by_cases hid : file = id
      · subst hid
        exact .inr (.inl ⟨i, g, bytes, rest, n, rfl, rfl⟩)
      · exact .inl (FileTree.content_setContent_of_ne hid _)
  | saved => exact (hresume _).imp_right fun hid => .inr ⟨rfl, hid⟩
  | closed => exact (hresume _).imp_right fun hid => .inr ⟨rfl, hid⟩
  | spoiled hfailure ht =>
      rcases ht with rfl | rfl
      · exact .inl rfl
      · exact (hresume _).imp_right fun hid => .inr ⟨rfl, hid⟩
  | _ => exact .inl rfl

/-- No segment that is left has more bytes than it is long. -/
def Writing.Measured : Writing → Prop
  | .placing _ left | .opened _ _ left => ∀ c ∈ left, c.2.length ≤ c.1.length
  | .marking _ | .saving _ | .cutting _ _ | .finished _ => True

theorem Writing.measured_write (s : Store) (i : PieceIndex) (data : Bytes) :
    (s.write i data).Measured := by
  rcases write_cases s i data with ⟨e, hwrite⟩ | ⟨left, hwrite⟩
  · rw [hwrite]
    trivial
  · rw [hwrite]
    obtain ⟨-, gs, hlaid, rfl⟩ := Store.laid_of_write hwrite
    exact fun c hc => Nat.le_of_eq (hlaid.length_of_mem hc)

theorem Writing.Measured.step {fault : Option Fault} {s s' : Store} {t t' : FileTree}
    {w w' : Writing} (h : w.Measured) (he : Effect fault s t w w' s' t') : w'.Measured := by
  cases he with
  | opening => exact h
  | written => exact fun c hc => h c (List.mem_cons_of_mem _ hc)
  | _ => trivial

namespace Archive

variable {a b : Archive} {e : Act} {d : Descriptor} {id : FileId} {k : Nat} {g : Segment}

/-- A call is about to write a segment to a file. -/
def Writes (a : Archive) (k : Nat) (id : FileId) (g : Segment) : Prop :=
  ∃ i data j bytes rest, a.calls[k]? = some (.write i data (.opened j id ((g, bytes) :: rest)))

/-- An archive of which no call writes more bytes than its segments have. -/
def Measured (a : Archive) : Prop := ∀ i data w, .write i data w ∈ a.calls → w.Measured

theorem Measured.turn (h : a.Measured) (hturn : Turn a e b) : b.Measured := by
  intro i data w' hcall
  rcases hturn.writing hcall with hold | ⟨-, rfl⟩ | ⟨k, fault, w, -, hold, heffect⟩
  · exact h i data w' hold
  · exact Writing.measured_write b.store i data
  · exact (h i data w (List.mem_of_getElem? hold)).step heffect

/-- A segment that is written goes to the file it is a segment of. -/
theorem Writes.fileAt (h : a.Writes k id g) (ha : a.Manned d) :
    a.store.FileAt a.tree g.file id ∧ ∃ i data gs, a.store.Laid i data gs ∧ g ∈ gs := by
  obtain ⟨i, data, j, bytes, rest, hcall⟩ := h
  obtain ⟨⟨gs, hlaid, hleft⟩, hfile⟩ := ha.aims i data _ (List.mem_of_getElem? hcall)
  exact ⟨hfile _ _ rfl, i, data, gs, hlaid, hleft _ (List.mem_cons_self ..)⟩

/-- A file is changed by a call that writes a segment to it, which leaves the bytes outside of the
segment, or by a call that works on the resume file. -/
theorem Turn.content (h : Turn a e b) (ha : a.Manned d) (hmeasured : a.Measured)
    (hne : b.tree.content id ≠ a.tree.content id) :
    ∃ k fault, e = .proceed k fault ∧
      ((∃ g, a.Writes k id g ∧
          ∀ p < (a.tree.content id).length, p < g.start ∨ g.start + g.length ≤ p →
            (b.tree.content id)[p]? = (a.tree.content id)[p]?) ∨
        a.Rewrites k ∧ id = a.store.resume) := by
  cases h with
  | @wrote k fault i data w w' s t hcall heffect =>
      refine ⟨k, fault, rfl, ?_⟩
      have hmem := List.mem_of_getElem? hcall
      rcases heffect.content ha.settled.handles id with
        hsame | ⟨j, g, bytes, rest, n, rfl, rfl⟩ | ⟨hw, hid⟩
      · exact absurd hsame hne
      · have hwrites : a.Writes k id g := ⟨i, data, j, bytes, rest, hcall⟩
        have hlt := (hwrites.fileAt ha).1.standsAt.lt_size
        have hbytes : bytes.length ≤ g.length :=
          hmeasured i data _ hmem (g, bytes) (List.mem_cons_self ..)
        refine .inl ⟨g, hwrites, fun p hp hout => ?_⟩
        simp only [FileTree.writeAt]
        rw [FileTree.content_setContent_self hlt, Bytes.getElem?_writeAt, List.length_take,
          if_neg (by omega), if_pos hp]
      · exact .inr ⟨⟨i, data, w, hcall, hw⟩, hid⟩
  | took hcall hstep =>
      exact absurd ((Reading.step_handles ha.settled.handles hstep).1.content id) hne
  | _ => exact absurd rfl hne

/-- The paths of an accepted description lead to the directory and from there down their names, so
two of them are one location, or one of them is above another, exactly if this holds of the names.
Where all names differ, also from those of the resume file, a file of the download is changed only
by writing one of its own segments, inside its length, and the resume file only by a call that is
rewriting the bitmap.  This holds whatever was written, read, closed and failed before. -/
theorem accepted_locations {d : Descriptor} (hcheck : d.check = .ok ()) {name : List Char}
    (hname : Path.isContained name = true) (tree : FileTree) (root : List Char) :
    (∀ path ∈ d.paths name,
      tree.place (Path.join root path) = tree.place root ++ way path ∧
        ∀ step ∈ way path, step ≠ [] ∧ step ≠ ['.'] ∧ step ≠ ['.', '.']) ∧
    (∀ path ∈ d.paths name, ∀ other ∈ d.paths name,
      (tree.place (Path.join root path) = tree.place (Path.join root other) ↔
        way path = way other) ∧
      (tree.place (Path.join root path) <+: tree.place (Path.join root other) ↔
        way path <+: way other)) ∧
    ∀ s tree', Store.open_ tree root d name = (.ok s, tree') → ((d.paths name).map way).Nodup →
      ∀ acts e, let a := (idle s tree').run acts
        (∀ file id, s.StandsAt a.tree file id → (a.act e).tree.content id ≠ a.tree.content id →
          ∃ k fault g, e = .proceed k fault ∧ a.Writes k id g ∧ g.file = file ∧ s.Within g ∧
            ∀ p < (a.tree.content id).length, p < g.start ∨ g.start + g.length ≤ p →
              ((a.act e).tree.content id)[p]? = (a.tree.content id)[p]?) ∧
        ((a.act e).tree.content s.resume ≠ a.tree.content s.resume →
          ∃ k fault, e = .proceed k fault ∧ a.Rewrites k) := by
  have hcontained : ∀ path ∈ d.paths name, Path.isContained path = true :=
    fun path hpath => Descriptor.isContained_of_mem_paths hcheck hname hpath
  have hplace : ∀ path ∈ d.paths name,
      tree.place (Path.join root path) = tree.place root ++ way path :=
    fun path hpath => FileTree.place_join (hcontained path hpath)
  refine ⟨fun path hpath => ⟨hplace path hpath, fun step hstep => ?_⟩,
    fun path hpath other hother => ?_, ?_⟩
  · exact FileTree.of_mem_way (hcontained path hpath) hstep
  · rw [hplace path hpath, hplace other hother, List.append_cancel_left_eq,
      List.prefix_append_right_inj]
    exact ⟨.rfl, .rfl⟩
  · intro s tree' hopen hnodup acts e a
    have hhoused := Store.housed_open hopen
      (Descriptor.nodup_placesOf hcheck hname hnodup tree root)
    have hmoment : a.Manned d ∧ a.Measured := by
      refine run_moments (P := fun b => b.Manned d ∧ b.Measured)
        ⟨manned_idle hopen, nofun⟩ ?_
      rintro e - b b' hturn ⟨hmanned, hmeasured⟩
      exact ⟨hmanned.turn hturn, hmeasured.turn hturn⟩
    obtain ⟨hmanned, hmeasured⟩ := hmoment
    have hlater : Later (idle s tree') a := later_run hhoused.toSettled acts
    have hahoused : a.store.Housed a.tree := hlater.housed hhoused
    have hlayout : s.layout = a.store.layout := hlater.grows.layout.symm
    have hturn := turn_act a e
    refine ⟨fun file id hstands hne => ?_, fun hne => ?_⟩
    · have hstands : a.store.StandsAt a.tree file id :=
        hstands.of_keeps hlayout (.refl _) fun _ hentry => hentry
      obtain ⟨k, fault, rfl, ⟨g, hwrites, hout⟩ | ⟨-, hid⟩⟩ :=
        hturn.content hmanned hmeasured hne
      · obtain ⟨hfile, i, data, gs, hlaid, hg⟩ := hwrites.fileAt hmanned
        have hwithin := hlaid.within hmanned.fits (Descriptor.sound_of_check hcheck) hg
        exact ⟨k, fault, g, rfl, hwrites, hahoused.file_eq hfile.standsAt hstands,
          hwithin.of_layout hlayout, hout⟩
      · exact absurd hid.symm (hahoused.ne_resume hstands)
    · have hresume : a.store.resume = s.resume := hlater.resume_eq
      rw [← hresume] at hne
      obtain ⟨k, fault, rfl, ⟨g, hwrites, -⟩ | ⟨hrewrites, -⟩⟩ :=
        hturn.content hmanned hmeasured hne
      · exact absurd rfl (hahoused.ne_resume (hwrites.fileAt hmanned).1.standsAt)
      · exact ⟨k, fault, rfl, hrewrites⟩

/-- Two spellings of one path are accepted, and the second piece is written over the first. -/
theorem accepted_paths_collide :
    let d : Descriptor := ⟨⟨.zero 20⟩, 2, 1, [.zero 20, .zero 20], [⟨"a", 1⟩, ⟨"./a", 1⟩]⟩
    let tree := FileTree.empty []
    d.check = .ok () ∧
      tree.place (Path.join ['t'] "a".toList) = tree.place (Path.join ['t'] "./a".toList) ∧
      ∃ s tree', Store.open_ tree ['t'] d ['r'] = (.ok s, tree') ∧
        let a := (idle s tree').run ([.write 0 [97], .write 1 [98]] ++
          [0, 0, 0, 0, 0, 0, 1, 1, 1, 1, 1, 1].map fun k => .proceed k none)
        a.calls = [.write 0 [97] (.finished (.ok ())), .write 1 [98] (.finished (.ok ()))] ∧
          (a.store.readPiece a.tree 0).1 = some [98] := by
  refine ⟨rfl, by decide, _, _, rfl, ?_⟩
  decide +kernel

/-- Paths with points and empty names between their names, and a segment about to be written. -/
theorem accepted_locations_points_between :
    let d : Descriptor := ⟨⟨.zero 20⟩, 2, 1, [.zero 20, .zero 20], [⟨"a//b", 1⟩, ⟨"./c", 1⟩]⟩
    let tree := FileTree.empty []
    let root := ['t', '/']
    let acts : List Act := [.write 1 [7], .proceed 0 none]
    d.check = .ok () ∧ Path.isContained ['r'] = true ∧
      tree.place (Path.join root "a//b".toList) = tree.place root ++ [['a'], ['b']] ∧
      ∃ s tree', Store.open_ tree root d ['r'] = (.ok s, tree') ∧
        ((d.paths ['r']).map way).Nodup ∧
        let a := (idle s tree').run acts
        s.StandsAt a.tree 1 1 ∧
          (a.act (.proceed 0 none)).tree.content 1 ≠ a.tree.content 1 ∧
          (∃ g, a.Writes 0 1 g ∧ g.file = 1 ∧ s.Within g) ∧
          (a.act (.proceed 0 none)).tree.content s.resume = a.tree.content s.resume := by
  have hcheck : Descriptor.check ⟨⟨.zero 20⟩, 2, 1, [.zero 20, .zero 20],
    [⟨"a//b", 1⟩, ⟨"./c", 1⟩]⟩ = .ok () := rfl
  obtain ⟨hplaces, -, hcalls⟩ := @accepted_locations _ hcheck ['r'] (by decide)
    (FileTree.empty []) ['t', '/']
  refine ⟨hcheck, by decide, (hplaces _ (by decide)).1, _, _, rfl, by decide, ?_⟩
  obtain ⟨hfiles, hresume⟩ := hcalls _ _ rfl (by decide)
    [.write 1 [7], .proceed 0 none] (.proceed 0 none)
  obtain ⟨k, fault, g, hact, hwrites, hfile, hwithin, -⟩ :=
    hfiles 1 1 ⟨_, rfl, by decide +kernel⟩ (by decide +kernel)
  cases hact
  refine ⟨⟨_, rfl, by decide +kernel⟩, by decide +kernel, ⟨g, hwrites, hfile, hwithin⟩, ?_⟩
  -- a call that is about to write a segment does not work on the bitmap
  refine Classical.byContradiction fun hne => ?_
  obtain ⟨k, fault, hact, i, data, w, hcall, hw⟩ := hresume hne
  cases hact
  obtain ⟨i', data', j, bytes, rest, hcall'⟩ := hwrites
  rw [hcall'] at hcall
  cases hcall
  cases hw

end Archive

end Torrent
