import Torrent.Proofs.Archive.Orderly
import Torrent.Proofs.Descriptor.Joined
import Torrent.Proofs.Store.Fresh
import Torrent.Proofs.Store.Positions
import Torrent.Proofs.Store.Trimmed

/-!
# When all pieces are written

In a directory where none of its files was, a torrent whose pieces are all written
has exactly its files: each has the bytes of its place in the torrent
(`Archive.files_exact`).  A file of length zero is not there, because no piece
touches it.
-/

namespace Torrent.Archive

variable {d : Descriptor} {acts : List Act} {a b : Archive} {e : Act}

/-- An archive that began without its files. -/
structure Begun (d : Descriptor) (acts : List Act) (a : Archive) : Prop
    extends Orderly d acts a where
  trimmed : a.store.Trimmed a.tree
  within : ∀ i start length r, .read i start length r ∈ a.calls → r.Within a.store

theorem Begun.turn (h : a.Begun d acts) (hd : d.Sound) (hagree : Agree acts) (he : e ∈ acts)
    (hturn : Turn a e b) : b.Begun d acts := by
  have horderly := h.toOrderly.turn hd hagree he hturn
  have hlayout := (hturn.later h.settled).grows.layout
  refine ⟨horderly, ?_, fun i start length r' hcall => ?_⟩
  · cases hturn with
    | wrote hcall heffect =>
        have hcarries := h.carries _ _ _ (List.mem_of_getElem? hcall)
        exact heffect.trimmed h.housed h.fits hd hcarries h.trimmed
    | took hcall hstep =>
        have hwithin := h.within _ _ _ _ (List.mem_of_getElem? hcall)
        exact (hwithin.step h.housed h.trimmed hstep).2
    | released file => exact h.trimmed.of_layout hlayout
    | _ => exact h.trimmed
  · rcases hturn.reads hcall with hold | ⟨-, rfl⟩ | ⟨r, hold, hstep⟩
    · exact (h.within i start length r' hold).of_layout hlayout
    · exact Reading.within_read horderly.fits hd i start length
    · exact ((h.within i start length r hold).step h.housed h.trimmed hstep).1

/-- The store that was opened has the files of the description. -/
theorem file_open {s : Store} {tree tree' : FileTree} {root name : List Char} {n : Nat}
    {file : FileSpan} (hopen : Store.open_ tree root d name = (.ok s, tree'))
    (hfile : d.files[n]? = some file) :
    s.path? n = some (Path.join root file.path.toList) ∧
      s.lengths[n]? = some file.length.toNat ∧
      offset s.lengths n = ((d.files.take n).map fun f => f.length.toNat).sum := by
  obtain ⟨-, -, -, -, rfl⟩ := Store.open_eq hopen
  simp only [Store.path?, Store.lengths, offset]
  rw [List.map_map, List.getElem?_map, List.getElem?_map, hfile, List.map_take]
  exact ⟨rfl, rfl, rfl⟩

/-- An archive whose calls have written all pieces shows all bytes of the torrent. -/
theorem Orderly.shows (h : a.Orderly d acts) (hd : d.Sound) {data : Nat → Bytes}
    (hdone : ∀ k < d.pieceCount, ∃ i : PieceIndex, i.toNat = k ∧
      .write i (data k) (.finished (.ok ())) ∈ a.calls) :
    (d.joined data).length = d.totalLength.toNat ∧
      ∀ pos b, (d.joined data)[pos]? = some b → a.store.Shows a.tree pos b := by
  have hlength : ∀ k < d.pieceCount, (data k).length = d.lengthAt k := by
    intro k hk
    obtain ⟨i, rfl, hcall⟩ := hdone k hk
    obtain ⟨gs, done, hlaid, -⟩ := (h.of_finished hcall).1
    exact hlaid.length_eq h.fits hd
  refine ⟨hd.length_joined hlength, fun pos b hb => ?_⟩
  obtain ⟨hpos, -⟩ := List.getElem?_eq_some_iff.1 hb
  rw [hd.length_joined hlength] at hpos
  obtain ⟨k, p, hk, hp, rfl⟩ := hd.exists_piece hpos
  rw [hd.getElem?_joined hlength hk hp] at hb
  obtain ⟨i, rfl, hcall⟩ := hdone k hk
  rw [← h.fits.toNat_pieceStart hd i]
  exact (h.of_finished hcall).1.shows hb

/-- When every piece was written to a directory that had none of the files, every file that has
bytes in the torrent is there, and its content is that stretch of the torrent.  A file without bytes
is not there.  Only files whose lengths leave the 64-bit words when they are added up can begin
behind the torrent. -/
theorem files_exact {s : Store} {tree tree' : FileTree} {root name : List Char}
    (hcheck : d.check = .ok ()) (hopen : Store.open_ tree root d name = (.ok s, tree'))
    (hplaces : (Store.placesOf tree root name d).Nodup)
    (hempty : ∀ p ∈ Store.placesOf tree root name d, ∀ id, tree.entryAt p ≠ some (.file id))
    (acts : List Act) (hagree : Agree acts) (data : Nat → Bytes)
    (hdone : ∀ k < d.pieceCount, ∃ i : PieceIndex, i.toNat = k ∧
      .write i (data k) (.finished (.ok ())) ∈ ((idle s tree').run acts).calls)
    (n : Nat) (file : FileSpan) (hfile : d.files[n]? = some file) :
    let after := ((idle s tree').run acts).tree
    let start := ((d.files.take n).map fun f => f.length.toNat).sum
    (file.length ≠ 0 → start < d.totalLength.toNat →
      after.readFile (Path.join root file.path.toList) =
        .ok (((d.joined data).drop start).take file.length.toNat)) ∧
      (file.length = 0 ∨ d.totalLength.toNat ≤ start →
        ∀ bytes, after.readFile (Path.join root file.path.toList) ≠ .ok bytes) := by
  intro after start
  have hd := Descriptor.sound_of_check hcheck
  have hbegun : (idle s tree').Begun d acts := by
    refine ⟨orderly_idle hopen hplaces acts, ?_, nofun⟩
    exact fun file size id _ hstands =>
      absurd hstands (Store.not_standsAt_open hopen hplaces hempty file id)
  have hlater := later_run hbegun.settled acts
  have hrun : ((idle s tree').run acts).Begun d acts :=
    run_moments (P := Begun d acts) hbegun fun e he _ _ hturn hb => hb.turn hd hagree he hturn
  obtain ⟨hlength, hshows⟩ := hrun.shows hd hdone
  obtain ⟨hpath, hsize, hoffset⟩ := file_open hopen hfile
  rw [← hrun.fits.totalLength] at hlength ⊢
  have hpath := (Store.path?_of_layout hlater.grows.layout n).trans hpath
  have hlengths : ((idle s tree').run acts).store.lengths = s.lengths :=
    Store.lengths_of_layout hlater.grows.layout
  rw [← hlengths] at hsize hoffset
  have hzero : file.length = 0 ↔ file.length.toNat = 0 := UInt64.toNat_inj.symm
  refine ⟨fun hpos hinside => ?_, fun hno bytes => ?_⟩
  · have hread := hrun.trimmed.readFile hlength hshows hpath hsize
      (Nat.pos_of_ne_zero fun h => hpos (hzero.2 h)) (hoffset.symm ▸ hinside)
    rw [hoffset] at hread
    exact hread
  · refine hrun.trimmed.readFile_ne hpath hsize ?_ bytes
    rw [hoffset]
    exact hno.imp_left hzero.1

/-- The last piece is written first, and the effects of the two calls alternate. -/
theorem files_exact_last_first :
    let d : Descriptor :=
      ⟨⟨.zero 20⟩, 4, 3, [.zero 20, .zero 20], [⟨"a", 2⟩, ⟨"b", 0⟩, ⟨"c", 2⟩]⟩
    let acts : List Act := [.write 1 [8], .write 0 [5, 6, 7]] ++
      (List.replicate 10 [.proceed 1 none, .proceed 0 none]).flatten
    d.check = .ok () ∧ (Store.placesOf (.empty []) ['t'] ['r'] d).Nodup ∧
      (∀ p ∈ Store.placesOf (.empty []) ['t'] ['r'] d, ∀ id,
        (FileTree.empty []).entryAt p ≠ some (.file id)) ∧
      Agree acts ∧
      ∃ s tree, Store.open_ (.empty []) ['t'] d ['r'] = (.ok s, tree) ∧
        .write 1 [8] (.finished (.ok ())) ∈ ((idle s tree).run acts).calls ∧
        .write 0 [5, 6, 7] (.finished (.ok ())) ∈ ((idle s tree).run acts).calls ∧
        ((idle s tree).run acts).tree.readFile (Path.join ['t'] ['a']) = .ok [5, 6] ∧
        ((idle s tree).run acts).tree.readFile (Path.join ['t'] ['c']) = .ok [7, 8] ∧
        ∀ bytes, ((idle s tree).run acts).tree.readFile (Path.join ['t'] ['b']) ≠ .ok bytes := by
  have hopen : Store.open_ (.empty []) ['t']
    ⟨⟨.zero 20⟩, 4, 3, [.zero 20, .zero 20], [⟨"a", 2⟩, ⟨"b", 0⟩, ⟨"c", 2⟩]⟩ ['r'] =
      (.ok _, _) := rfl
  have hempty := FileTree.entryAt_empty_ne []
  have hexact := files_exact rfl hopen (by decide) (fun p _ => hempty p)
    ([.write 1 [8], .write 0 [5, 6, 7]] ++
      (List.replicate 10 [.proceed 1 none, .proceed 0 none]).flatten) (by decide)
    (fun k => if k = 0 then [5, 6, 7] else [8]) fun
      | 0, _ => ⟨0, rfl, by decide +kernel⟩
      | 1, _ => ⟨1, rfl, by decide +kernel⟩
      | k + 2, hk => absurd (show k + 2 < 2 from hk) (by omega)
  exact ⟨rfl, by decide, fun p _ => hempty p, by decide, _, _, hopen, by decide +kernel,
    by decide +kernel, (hexact 0 ⟨"a", 2⟩ rfl).1 (by decide) (by decide),
    (hexact 2 ⟨"c", 2⟩ rfl).1 (by decide) (by decide), (hexact 1 ⟨"b", 0⟩ rfl).2 (.inl rfl)⟩

/-- The only piece is written, and the file that no piece touches does not come to its place. -/
theorem empty_file_absent :
    let d : Descriptor := ⟨⟨.zero 20⟩, 1, 1, [.zero 20], [⟨"a", 1⟩, ⟨"b", 0⟩]⟩
    let acts : List Act := .write 0 [0x61] :: List.replicate 6 (.proceed 0 none)
    d.check = .ok () ∧ (Store.placesOf (.empty []) ['t'] ['r'] d).Nodup ∧ Agree acts ∧
      ∃ s tree, Store.open_ (.empty []) ['t'] d ['r'] = (.ok s, tree) ∧
        ((idle s tree).run acts).calls = [.write 0 [0x61] (.finished (.ok ()))] ∧
        ((idle s tree).run acts).tree.readFile (Path.join ['t'] ['a']) = .ok [0x61] ∧
        ((idle s tree).run acts).tree.entryAt
          (((idle s tree).run acts).tree.place (Path.join ['t'] ['b'])) = none :=
  ⟨rfl, by decide, by decide, _, _, rfl, by decide +kernel, by decide +kernel, by decide +kernel⟩

end Torrent.Archive
