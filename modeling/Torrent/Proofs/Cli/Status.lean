import Torrent.Cli.Memory
import Torrent.Proofs.Descriptor.RoundTrip
import Torrent.Proofs.Download.Progress
import Torrent.Proofs.Files.Finding
import Torrent.Proofs.Swarm.Seeding

/-!
# What is reported of a directory

How far a download is can be read from its resume file without opening a store.  What
is read is what a download would find (`Cli.completedIn_open`), and all is there
exactly if a download that has nobody to ask succeeds (`Cli.status_agrees`).

A file is counted in place, and a store takes its front.  So the two agree on a file of
any length and whatever its padding.

Opening a store makes its directory, and a report makes nothing.  So the directory is
there, or nothing is where its resume file would be: a path that turns back out of a
directory that is not there leads to nothing until that directory is made
(`Cli.status_before_directory`).
-/

namespace Torrent

namespace Store

variable {s : Store} {t t' : FileTree} {root name : List Char} {d : Descriptor}

/-- The bits that a resume file sets, none if it is short. -/
theorem count_resume (resume : Bytes) {n : Nat} (hn : n < UInt32.size) :
    (if byteLength n ≤ resume.length then (⟨resume⟩ : Bitfield).count n else 0) =
      (List.range n).countP (bitmapOf resume n).bit := by
  split
  next hlength =>
    rw [Bitfield.count_eq _ (Nat.le_of_lt hn)]
    refine List.countP_congr fun i hi => ?_
    rw [bit_bitmapOf]
    simp [hlength, div_lt_byteLength (List.mem_range.1 hi)]
  next hshort =>
    rw [eq_comm, List.countP_eq_zero]
    intro i _
    rw [bit_bitmapOf]
    simp [hshort]

/-- A store has the resume file that was there, or a new one if none was found. -/
theorem resume_open (hopen : open_ t root d name = (.ok s, t'))
    (hshown : root = [] ∨ t.isDirectory root = true ∨
      t.fileAt? (t.place (Path.join root name)) = none) :
    t.readFile (Path.join root name) = .ok (t'.content s.resume) ∨
      t.readFile (Path.join root name) = .error .notFound ∧ t'.content s.resume = [] := by
  obtain ⟨hkeeps, hleads, -⟩ := open_spec hopen
  rw [resumePath_open hopen] at hleads
  rcases FileTree.readFile_of_leadsTo hkeeps hleads with hread | hmissing
  · left
    rw [hread, (open_extends hopen).content]
  · refine .inr ⟨hmissing, ?_⟩
    rcases entryAt_open hopen _ _ hleads.entry with hold | ⟨-, hnil⟩
    · rw [hkeeps.place_eq] at hold
      rcases or_assoc.2 hshown with hdirectory | hnone
      · -- Nothing had to be made, so the file would have been found.
        obtain ⟨made, resume, hmade, hfile, rfl⟩ := open_eq hopen
        rw [FileTree.makeDirectories_of_isDirectory hdirectory] at hmade
        cases hmade
        obtain ⟨-, hleads, rfl | ⟨-, hfree, -⟩⟩ := FileTree.openFile_spec hfile
        · rw [hleads.readFile] at hmissing
          cases hmissing
        · rw [hold] at hfree
          cases hfree
      · rw [FileTree.fileAt?_eq_some_iff.2 hold] at hnone
        cases hnone
    · exact hnil

/-- A store can be opened on a directory with a resume file. -/
theorem open_of_readFile (hname : Path.isAbsolute name = false)
    (hsome : FileTree.realNames name ≠ []) {bytes : Bytes}
    (hread : t.readFile (Path.join root name) = .ok bytes) (d : Descriptor) :
    ∃ s, open_ t root d name = (.ok s, t) := by
  have hdirectory := FileTree.isDirectory_of_readFile_join hname hsome hread
  obtain ⟨id, hleads, -⟩ := FileTree.leadsTo_of_readFile hread
  simp only [open_]
  rw [FileTree.makeDirectories_of_isDirectory hdirectory]
  dsimp only
  rw [hleads.openFile]
  exact ⟨_, rfl⟩

/-- A store can be opened on a directory without a resume file. -/
theorem open_of_notFound {last : Name} (hname : Path.isAbsolute name = false)
    (hlast : FileTree.realNames name = [last]) (hslash : FileTree.endsInSlash name = false)
    (hdirectory : root = [] ∨ t.isDirectory root = true)
    (hmissing : t.readFile (Path.join root name) = .error .notFound) (d : Descriptor) :
    ∃ s t', open_ t root d name = (.ok s, t') := by
  obtain ⟨id, t', hfile⟩ :=
    FileTree.openFile_of_notFound hname hlast hslash hdirectory hmissing
  simp only [open_]
  rw [FileTree.makeDirectories_of_isDirectory hdirectory]
  dsimp only
  rw [hfile]
  exact ⟨_, t', rfl⟩

end Store

namespace Download

variable {d : Descriptor} {tree tree' : FileTree} {root : List Char} {settings : Settings}
  {s : Store}

/-- A download begins where its store can be opened. -/
theorem start_of_open (hcheck : d.check = .ok ())
    (hopen : Store.open_ tree root d settings.resumeFileName.toList = (.ok s, tree'))
    (peers : List PeerRecord) (random : Bytes) (now : Nat) :
    start tree peers d root settings random now =
      (.ok ((Swarm.seed d s tree' (.ofCandidates peers settings.maxPeers.toNat) settings
        (localId settings random)).begin_ now none), tree') := by
  simp only [start, open_]
  rw [hcheck]
  dsimp only
  rw [hopen]

/-- A download succeeds at once exactly if its store can be opened and lacks nothing. -/
theorem exists_start_iff (hcheck : d.check = .ok ()) (peers : List PeerRecord) (random : Bytes)
    (now : Nat) :
    (∃ w tree', start tree peers d root settings random now = (.ok w, tree') ∧
      w.outcome = some (.ok true)) ↔
    ∃ s tree', Store.open_ tree root d settings.resumeFileName.toList = (.ok s, tree') ∧
      Swarm.missing d s = [] := by
  constructor
  · rintro ⟨w, tree', hstart, hw⟩
    obtain ⟨s, set, hopen, rfl⟩ := start_eq_ok hstart
    have hdrained := ((Swarm.outcome_begin_iff _ rfl now none).1 hw).1
    exact ⟨s, tree', hopen, Swarm.isDrained_seed.1 hdrained⟩
  · rintro ⟨s, tree', hopen, hnothing⟩
    refine ⟨_, tree', start_of_open hcheck hopen peers random now, ?_⟩
    exact (Swarm.outcome_begin_iff _ rfl now none).2 ⟨Swarm.isDrained_seed.2 hnothing, rfl⟩

end Download

namespace Cli

variable {d : Descriptor} {t t' : FileTree} {descriptor output : List Char} {s : Store}

theorem check_of_descriptorOf {content : Except IoError Bytes} (h : descriptorOf content = .ok d) :
    d.check = .ok () := by
  simp only [descriptorOf] at h
  split at h
  next => cases h
  next =>
    split at h
    next => cases h
    next hjson =>
      cases h
      exact Descriptor.check_of_ofJson hjson

/-- A description without a fault can be given in a file. -/
theorem descriptorOf_toJson (hcheck : d.check = .ok ()) : descriptorOf (.ok d.toJson) = .ok d := by
  obtain ⟨text, htext⟩ := Descriptor.isText_toJson d
  simp only [descriptorOf, textOf]
  rw [← htext, Bytes.toText?_ofText]
  dsimp only
  rw [htext, Descriptor.ofJson_toJson hcheck]

theorem completedIn_ok (d : Descriptor) (bytes : Bytes) (hcount : d.pieceCount < UInt32.size) :
    completedIn d (.ok bytes) =
      .ok ((List.range d.pieceCount).countP (Store.bitmapOf bytes d.pieceCount).bit) := by
  rw [← Store.count_resume bytes hcount]
  simp only [completedIn]
  split <;> rfl

/-- Where the resume file cannot be read, the download is not complete. -/
theorem completedIn_error_ne (hcheck : d.check = .ok ()) (e : IoError) :
    completedIn d (.error e) ≠ .ok d.pieceCount := by
  have hpos := (Descriptor.sound_of_check hcheck).pieceCount_pos
  simp only [completedIn]
  split
  next heq => cases heq
  next =>
    intro hzero
    rw [Except.ok.injEq] at hzero
    omega
  next => nofun

/-- What is counted in the resume file is what a download would begin with. -/
theorem completedIn_open (hcheck : d.check = .ok ()) (hcount : d.pieceCount < UInt32.size)
    {name : List Char} (hopen : Store.open_ t output d name = (.ok s, t'))
    (hshown : output = [] ∨ t.isDirectory output = true ∨
      t.fileAt? (t.place (Path.join output name)) = none) (peers : PeerSet) (settings : Settings)
    (localId : PeerId) :
    completedIn d (t.readFile (Path.join output name)) =
      .ok (Swarm.seed d s t' peers settings localId).stats.completed := by
  have hcompleted : (Swarm.seed d s t' peers settings localId).stats.completed =
      (List.range d.pieceCount).countP s.completed.bit := by
    have hparts := Swarm.length_missing_add (Descriptor.sound_of_check hcheck) s
    rw [Nat.mod_eq_of_lt hcount] at hparts
    show d.pieceCount - (Swarm.missing d s).length = _
    omega
  rw [hcompleted, Store.completed_open hopen]
  rcases Store.resume_open hopen hshown with hread | ⟨hmissing, hnil⟩
  · rw [hread]
    exact completedIn_ok d _ hcount
  · rw [hmissing, hnil, ← completedIn_ok d [] hcount]
    simp only [completedIn]
    split <;> rfl

variable (schedule : Swarm → List Event) (environment : String → Option String)

/-- The lines that tell how far a download is. -/
theorem status_eq (output : List Char) (hread : descriptorOf (t.readFile descriptor) = .ok d)
    (shown : List String) :
    (status (.inMemory schedule environment) descriptor output).run ⟨t, shown⟩ =
      match completedIn d
        (t.readFile (Path.join output Settings.standard.resumeFileName.toList)) with
      | .error e => (.error e, ⟨t, shown⟩)
      | .ok completed => (.ok (completed == d.pieceCount),
          ⟨t, shown ++ ["Torrent " ++ d.infoHash.text,
            "  Completed: " ++ toString completed ++ "/" ++ toString d.pieceCount ++
              " pieces (" ++ percentText completed d.pieceCount ++ "%)"]⟩) := by
  simp only [status, Host.inMemory, StateT.run_bind, StateT.run_get, pure_bind, StateT.run_pure,
    hread]
  cases completedIn d (t.readFile (Path.join output Settings.standard.resumeFileName.toList)) with
  | error e => rfl
  | ok completed =>
      simp only [StateT.run_bind, StateT.run_modify, pure_bind, List.append_assoc]
      rfl

theorem status_eq_ok_true_iff (output : List Char)
    (hread : descriptorOf (t.readFile descriptor) = .ok d) (shown : List String) :
    ((status (.inMemory schedule environment) descriptor output).run ⟨t, shown⟩).1 = .ok true ↔
      completedIn d (t.readFile (Path.join output Settings.standard.resumeFileName.toList)) =
        .ok d.pieceCount := by
  rw [status_eq schedule environment output hread]
  split
  next e he => simp [he]
  next completed hcompleted => simp [hcompleted]

/-- A directory is reported as far as a download on it would begin, and as complete exactly if a
download that has nobody to ask succeeds.  The directory is there, or no file is where its resume
file would be.  The resume file may hold any bytes. -/
theorem status_agrees (output : List Char) (settings : Settings)
    (hread : descriptorOf (t.readFile descriptor) = .ok d) (hcount : d.pieceCount < UInt32.size)
    (hname : settings.resumeFileName = Settings.standard.resumeFileName)
    (hshown : output = [] ∨ t.isDirectory output = true ∨
      t.fileAt? (t.place (Path.join output Settings.standard.resumeFileName.toList)) = none)
    (shown : List String) (random : Bytes) (now : Nat) :
    let name := Settings.standard.resumeFileName.toList
    let resume := t.readFile (Path.join output name)
    let report := (status (.inMemory schedule environment) descriptor output).run ⟨t, shown⟩
    (∀ s t' peers localId, Store.open_ t output d name = (.ok s, t') →
      let completed := (Swarm.seed d s t' peers settings localId).stats.completed
      completedIn d resume = .ok completed ∧
      report = (.ok (completed == d.pieceCount),
        ⟨t, shown ++ ["Torrent " ++ d.infoHash.text,
          "  Completed: " ++ toString completed ++ "/" ++ toString d.pieceCount ++
            " pieces (" ++ percentText completed d.pieceCount ++ "%)"]⟩)) ∧
    (∀ bytes, resume = .ok bytes → ∃ s, Store.open_ t output d name = (.ok s, t)) ∧
    (output = [] ∨ t.isDirectory output = true → resume = .error .notFound →
      ∃ s t', Store.open_ t output d name = (.ok s, t')) ∧
    (∀ w t', Download.start t [] d output settings random now = (.ok w, t') → w.outcome ≠ none) ∧
    (report.1 = .ok true ↔ ∃ w t', Download.start t [] d output settings random now = (.ok w, t') ∧
      w.outcome = some (.ok true)) := by
  intro name resume report
  have hcheck := check_of_descriptorOf hread
  have hbegins : ∀ s t' peers localId, Store.open_ t output d name = (.ok s, t') →
      completedIn d resume = .ok (Swarm.seed d s t' peers settings localId).stats.completed :=
    fun s t' peers localId hopen =>
      completedIn_open hcheck hcount hopen hshown peers settings localId
  have hopens : ∀ bytes, resume = .ok bytes →
      ∃ s, Store.open_ t output d name = (.ok s, t) := fun bytes hbytes =>
    Store.open_of_readFile rfl (by decide) hbytes d
  have hall : ∀ s t', Store.open_ t output d name = (.ok s, t') →
      (completedIn d resume = .ok d.pieceCount ↔ Swarm.missing d s = []) := by
    intro s t' hopen
    rw [hbegins s t' .empty ⟨.zero 20⟩ hopen, Except.ok.injEq]
    exact Swarm.completed_seed_eq_iff t' .empty settings ⟨.zero 20⟩
  refine ⟨fun s t' peers localId hopen => ?_, hopens, fun hdirectory hmissing => ?_,
    fun w t' hstart => ?_, ?_⟩
  · have hcompleted := hbegins s t' peers localId hopen
    refine ⟨hcompleted, (status_eq schedule environment output hread shown).trans ?_⟩
    rw [hcompleted]
  · have hlast : FileTree.realNames name = [name] := by decide
    exact Store.open_of_notFound rfl hlast rfl hdirectory hmissing d
  · obtain ⟨s, -, hopen, -⟩ := Download.start_eq_ok hstart
    rw [Download.start_of_open hcheck hopen] at hstart
    cases hstart
    exact Swarm.outcome_begin_ne_none _ rfl now none
  · rw [Download.exists_start_iff hcheck, hname]
    rw [status_eq_ok_true_iff schedule environment output hread]
    refine ⟨fun hdone => ?_, ?_⟩
    · -- A count that is complete was read in a file, so the store can be opened.
      cases hresume : resume with
      | error e => exact absurd (hresume ▸ hdone) (completedIn_error_ne hcheck e)
      | ok bytes =>
          obtain ⟨s, hopen⟩ := hopens bytes hresume
          exact ⟨s, t, hopen, (hall s t hopen).1 hdone⟩
    · rintro ⟨s, t', hopen, hnothing⟩
      exact (hall s t' hopen).2 hnothing

/-- A resume file that is a byte too long and has its padding set is complete if all bits of the
pieces are set.  Without a resume file nothing is there. -/
theorem status_agrees_padding :
    let d : Descriptor := ⟨⟨.zero 20⟩, 5, 2, List.replicate 3 (.zero 20), [⟨"a", 5⟩]⟩
    let name := Settings.standard.resumeFileName.toList
    let described : FileTree := ⟨[([['d']], .file 0)], [d.toJson], [], by decide, by decide⟩
    let kept : FileTree :=
      ⟨[([['d']], .file 0), ([['t']], .directory), ([['t'], name], .file 1)],
        [d.toJson, [0xFF, 0x01]], [], by decide, by decide⟩
    let report (t : FileTree) :=
      ((status (.inMemory (fun _ => []) fun _ => none) ['d'] ['t']).run ⟨t, []⟩).1
    descriptorOf (described.readFile ['d']) = .ok d ∧ descriptorOf (kept.readFile ['d']) = .ok d ∧
      report described = .ok false ∧ report kept = .ok true ∧
      (∃ s, Store.open_ kept ['t'] d name = (.ok s, kept)) ∧
      (¬∃ w t', Download.start described [] d ['t'] .standard [] 0 = (.ok w, t') ∧
        w.outcome = some (.ok true)) ∧
      ∃ w t', Download.start kept [] d ['t'] .standard [] 0 = (.ok w, t') ∧
        w.outcome = some (.ok true) := by
  intro d name described kept report
  have hcheck : d.check = .ok () := by decide +kernel
  have hdescribed : descriptorOf (described.readFile ['d']) = .ok d := descriptorOf_toJson hcheck
  have hkept : descriptorOf (kept.readFile ['d']) = .ok d := descriptorOf_toJson hcheck
  have hnothing : completedIn d (described.readFile (Path.join ['t'] name)) = .ok 0 := by
    decide +kernel
  have hthree : completedIn d (kept.readFile (Path.join ['t'] name)) = .ok d.pieceCount := by
    decide +kernel
  have hpartial : report described = .ok false := by
    have hstatus := status_eq (fun _ => []) (fun _ => none) ['t'] hdescribed []
    rw [hnothing] at hstatus
    exact congrArg Prod.fst hstatus
  have hall : report kept = .ok true := (status_eq_ok_true_iff _ _ ['t'] hkept []).2 hthree
  obtain ⟨-, -, -, -, hmissing⟩ := status_agrees (fun _ => []) (fun _ => none) ['t'] .standard
    hdescribed (by decide) rfl (.inr (.inr (by decide))) [] [] 0
  obtain ⟨-, hopens, -, -, hthere⟩ := status_agrees (fun _ => []) (fun _ => none) ['t'] .standard
    hkept (by decide) rfl (.inr (.inl (by decide))) [] [] 0
  refine ⟨hdescribed, hkept, hpartial, hall, hopens [0xFF, 0x01] (by decide), ?_, hthere.1 hall⟩
  exact fun hstart => absurd (hpartial.symm.trans (hmissing.2 hstart)) nofun

/-- The path to a complete directory turns back out of one that is not there.  No resume file is
found for the report, and the download makes the directory and finds the file. -/
theorem status_before_directory :
    let d : Descriptor := ⟨⟨.zero 20⟩, 5, 2, List.replicate 3 (.zero 20), [⟨"a", 5⟩]⟩
    let name := Settings.standard.resumeFileName.toList
    let output := ['m', '/', '.', '.', '/', 't']
    let kept : FileTree :=
      ⟨[([['d']], .file 0), ([['t']], .directory), ([['t'], name], .file 1)],
        [d.toJson, [0xE0]], [], by decide, by decide⟩
    descriptorOf (kept.readFile ['d']) = .ok d ∧
      ((status (.inMemory (fun _ => []) fun _ => none) ['d'] output).run ⟨kept, []⟩).1 =
        .ok false ∧
      completedIn d (kept.readFile (Path.join output name)) = .ok 0 ∧
      (∃ s t', Store.open_ kept output d name = (.ok s, t') ∧
        (Swarm.seed d s t' .empty .standard ⟨.zero 20⟩).stats.completed = 3) ∧
      ∃ w t', Download.start kept [] d output .standard [] 0 = (.ok w, t') ∧
        w.outcome = some (.ok true) := by
  intro d name output kept
  have hcheck : d.check = .ok () := by decide +kernel
  have hkept : descriptorOf (kept.readFile ['d']) = .ok d := descriptorOf_toJson hcheck
  have hnothing : completedIn d (kept.readFile (Path.join output name)) = .ok 0 := by
    decide +kernel
  have hstatus := status_eq (fun _ => []) (fun _ => none) output hkept []
  rw [hnothing] at hstatus
  obtain ⟨s, t', hopen, hall⟩ : ∃ s t', Store.open_ kept output d name = (.ok s, t') ∧
      Swarm.missing d s = [] := ⟨_, _, rfl, by decide +kernel⟩
  exact ⟨hkept, congrArg Prod.fst hstatus, hnothing,
    ⟨s, t', hopen, (Swarm.completed_seed_eq_iff t' .empty .standard ⟨.zero 20⟩).2 hall⟩,
    (Download.exists_start_iff hcheck [] [] 0).2 ⟨s, t', hopen, hall⟩⟩

end Cli

end Torrent
