import Torrent.Proofs.Store.Trimmed

/-!
# Writing under faults

`Writing.under` takes the steps of writing one after the other, each under the
failure that is put upon it, and `Writing.saves` tells whether it comes as far as
the bitmap.  The bitmap in memory changes on the way to there and at no other time
(`Writing.completed_under`), and then all of the piece is in its files
(`Writing.Sited.lies`).

`Store.byteAt` is the byte at a place of a file, zero where there is none.  What is
apart from the piece that is written has the same bytes before and behind every
step (`Writing.Effect.byteAt`).
-/

namespace Torrent

/-! ## Bytes in files -/

namespace Store

variable {s s' : Store} {t t' : FileTree} {file p : Nat} {id : FileId} {g : Segment}
  {i j : PieceIndex}

/-- The byte at a place of a file of the store.  It is zero where no file is there and where the
file comes up short. -/
def byteAt (s : Store) (t : FileTree) (file p : Nat) : UInt8 :=
  match (s.path? file).bind fun path => t.fileAt? (t.place path) with
  | some id => (t.content id).getD p 0
  | none => 0

/-- The bytes of these segments. -/
def bytesIn (s : Store) (t : FileTree) (gs : List Segment) : Bytes :=
  gs.flatMap fun g => (List.range g.length).map fun k => s.byteAt t g.file (g.start + k)

theorem bytesIn_congr {gs : List Segment}
    (h : ∀ g ∈ gs, ∀ k < g.length, s'.byteAt t' g.file (g.start + k) =
      s.byteAt t g.file (g.start + k)) : s'.bytesIn t' gs = s.bytesIn t gs := by
  simp only [bytesIn]
  refine congrArg List.flatten (List.map_congr_left fun g hg => List.map_congr_left fun k hk => ?_)
  exact h g hg k (List.mem_range.1 hk)

theorem byteAt_of_standsAt (h : s.StandsAt t file id) :
    s.byteAt t file p = (t.content id).getD p 0 := by
  obtain ⟨path, hpath, hentry⟩ := h
  simp only [byteAt]
  rw [hpath, Option.bind_some, FileTree.fileAt?_eq_some_iff.2 hentry]

theorem byteAt_of_not_standsAt (h : ¬∃ id, s.StandsAt t file id) : s.byteAt t file p = 0 := by
  simp only [byteAt]
  split
  next id hid =>
    obtain ⟨path, hpath, hfile⟩ := Option.bind_eq_some_iff.1 hid
    exact absurd ⟨id, path, hpath, FileTree.fileAt?_eq_some_iff.1 hfile⟩ h
  next => rfl

/-- A byte stays when the file keeps it, if there is one, and a file that is new has none. -/
theorem byteAt_eq (hlayout : s'.layout = s.layout) (hkeeps : t.Keeps t')
    (hkept : ∀ id, s.StandsAt t file id → (t'.content id).getD p 0 = (t.content id).getD p 0)
    (hnew : ∀ id, s'.StandsAt t' file id → s.StandsAt t file id ∨ (t'.content id).getD p 0 = 0) :
    s'.byteAt t' file p = s.byteAt t file p := by
  by_cases hold : ∃ id, s.StandsAt t file id
  · obtain ⟨id, hid⟩ := hold
    rw [byteAt_of_standsAt hid, byteAt_of_standsAt (hid.keeps hlayout hkeeps), hkept id hid]
  · rw [byteAt_of_not_standsAt hold]
    by_cases hthere : ∃ id, s'.StandsAt t' file id
    · obtain ⟨id, hid⟩ := hthere
      rw [byteAt_of_standsAt hid]
      exact (hnew id hid).resolve_left fun hid => hold ⟨id, hid⟩
    · exact byteAt_of_not_standsAt hthere

theorem byteAt_of_layout (hlayout : s'.layout = s.layout) :
    s'.byteAt t file p = s.byteAt t file p :=
  byteAt_eq hlayout (.refl t) (fun _ _ => rfl) fun _ hid =>
    .inl (hid.of_keeps hlayout (.refl t) fun _ h => h)

/-- Opening a file changes no byte: one that is made is empty. -/
theorem byteAt_openSlot {other : Nat} {result : Except IoError FileId} (hs : s.Handles t)
    (h : s.openSlot t other = (result, s', t')) : s'.byteAt t' file p = s.byteAt t file p := by
  have hextends := (openSlot_spec hs h).1
  have hlayout := (openSlot_store h).1
  refine byteAt_eq hlayout hextends.toKeeps (fun id _ => by rw [hextends.content]) ?_
  rintro id ⟨path, hpath, hentry⟩
  rcases openSlot_files h _ hentry with hold | ⟨-, -, -, hnil⟩
  · rw [hextends.toKeeps.place_eq] at hold
    exact .inl ⟨path, (path?_of_layout hlayout file).symm.trans hpath, hold⟩
  · rw [hnil]
    exact .inr rfl

/-- Another content of a file that keeps the byte changes nothing of it. -/
theorem byteAt_setContent {bytes : Bytes}
    (hbyte : s.StandsAt t file id → bytes.getD p 0 = (t.content id).getD p 0) :
    s.byteAt (t.setContent id bytes) file p = s.byteAt t file p := by
  refine byteAt_eq rfl (t.keeps_setContent id bytes) (fun other hother => ?_) fun other hother =>
    .inl (hother.of_keeps rfl (t.keeps_setContent id bytes) fun _ h => h)
  by_cases hsame : id = other
  · subst hsame
    rw [FileTree.content_setContent_self hother.lt_size]
    exact hbyte hother
  · rw [FileTree.content_setContent_of_ne hsame]

/-- No byte of a file changes when the resume file is written. -/
theorem byteAt_resume (hs : s.Housed t) (bytes : Bytes) :
    s.byteAt (t.setContent s.resume bytes) file p = s.byteAt t file p :=
  byteAt_setContent fun hstands => absurd rfl (hs.ne_resume hstands)

/-- A byte stays when something else is written. -/
theorem byteAt_writeAt {bytes : Bytes} (hs : s.Housed t) (hfile : s.FileAt t g.file id)
    (hbytes : bytes.length ≤ g.length) (hapart : g.Apart ⟨file, p, 1⟩) :
    s.byteAt (t.writeAt id g.start bytes) file p = s.byteAt t file p := by
  refine byteAt_setContent fun hstands => Bytes.getD_writeAt_of_apart _ ?_
  have := hapart (hs.file_eq hfile.standsAt hstands)
  dsimp only at this
  omega

/-- Reading changes no byte. -/
theorem byteAt_readBlock {start length : Nat} {result : Option Bytes} (hs : s.Handles t)
    (h : s.readBlock t i start length = (result, s', t')) :
    s'.byteAt t' file p = s.byteAt t file p := by
  refine (readBlock_moments (P := fun s₁ t₁ => s₁.Handles t₁ ∧
    s₁.byteAt t₁ file p = s.byteAt t file p) ⟨hs, rfl⟩ ?_ h).2
  rintro r s₁ t₁ r' s' t' hstep ⟨hs₁, hsame⟩
  refine ⟨(Reading.step_handles hs₁ hstep).2, Eq.trans ?_ hsame⟩
  rcases Reading.step_opens hstep with ⟨rfl, rfl⟩ | ⟨other, result, hopen⟩
  · rfl
  · exact byteAt_openSlot hs₁ hopen

/-- A block that is dealt out in chunks with the bytes of their segments. -/
theorem eq_bytesIn {gs : List Segment} {block : Bytes}
    (hsum : (gs.map Segment.length).sum = block.length)
    (hchunks : ∀ c ∈ deal gs block, c.2 =
      (List.range c.1.length).map fun k => s.byteAt t c.1.file (c.1.start + k)) :
    block = s.bytesIn t gs := by
  induction gs generalizing block with
  | nil => exact List.eq_nil_of_length_eq_zero hsum.symm
  | cons g rest ih =>
      rw [List.map_cons, List.sum_cons] at hsum
      simp only [deal] at hchunks
      have hfront := hchunks _ (List.mem_cons_self ..)
      have hrest := ih (by rw [List.length_drop]; omega) fun c hc =>
        hchunks c (List.mem_cons_of_mem _ hc)
      dsimp only at hfront
      rw [← List.take_append_drop g.length block, hfront, hrest]
      rfl

/-- A stretch that is in a file has its bytes. -/
theorem eq_map_byteAt {bytes : Bytes} {start length : Nat} (h : s.StandsAt t file id)
    (hcontent : (t.content id).stretch start length = bytes) (hlength : bytes.length = length) :
    bytes = (List.range length).map fun k => s.byteAt t file (start + k) := by
  refine List.ext_getElem? fun k => ?_
  by_cases hk : k < length
  · have hbyte : ((t.content id).stretch start length)[k]? = bytes[k]? := by rw [hcontent]
    rw [Bytes.getElem?_stretch, if_pos hk] at hbyte
    rw [List.getElem?_map, List.getElem?_range hk, Option.map_some, byteAt_of_standsAt h,
      List.getD_eq_getElem?_getD, hbyte, List.getElem?_eq_getElem (by omega)]
    rfl
  · rw [List.getElem?_eq_none (by omega), List.getElem?_eq_none]
    rw [List.length_map, List.length_range]
    omega

/-- What is read is what the files have there. -/
theorem readBlock_eq_bytesIn {block : Bytes} {start length : Nat} (hs : s.Handles t)
    (h : s.readBlock t i start length = (some block, s', t')) :
    ∃ gs, s.Stretch i start length gs ∧ block = s.bytesIn t gs := by
  obtain ⟨-, hs', hlayout, -⟩ := readBlock_keeps hs h
  obtain ⟨-, -, hlength, hextends, hwithin, gs, hsegments, hchunks⟩ := readBlock_eq_some h
  refine ⟨gs, ⟨hwithin, hsegments⟩, ?_⟩
  have hblock : block = s.bytesIn t' gs := by
    refine eq_bytesIn ?_ fun c hc => ?_
    · rw [(Walk.of_segmentsFrom hsegments).spec.1, hlength]
    · obtain ⟨id, hreaches, hcontent, hfull⟩ := hchunks c hc
      exact eq_map_byteAt (hreaches.fileAt hs hextends.toKeeps).standsAt hcontent hfull
  rw [hblock]
  refine bytesIn_congr fun g _ k _ => ?_
  rw [← byteAt_readBlock hs h, byteAt_of_layout hlayout]

end Store

/-! ## Steps under faults -/

namespace Writing

variable {w w' : Writing} {s s' : Store} {t t' : FileTree} {fault : Option Fault}
  {faults : List (Option Fault)} {i j : PieceIndex} {data block : Bytes} {d : Descriptor}

/-- Steps of writing, each under the failure that is put upon it. -/
def under : List (Option Fault) → Writing → Store → FileTree → Writing × Store × FileTree
  | [], w, s, t => (w, s, t)
  | fault :: faults, w, s, t =>
    let (w, s, t) := w.step fault s t
    under faults w s t

/-- Whether writing comes as far as its bitmap in these steps. -/
def saves : List (Option Fault) → Writing → Store → FileTree → Bool
  | _, .saving _, _, _ => true
  | [], _, _, _ => false
  | fault :: faults, w, s, t =>
    let (w, s, t) := w.step fault s t
    saves faults w s t

/-- What is kept by every step of writing is kept under all faults. -/
theorem under_moments {P : Writing → Store → FileTree → Prop} (h : P w s t)
    (hkept : ∀ fault w s t w' s' t', Effect fault s t w w' s' t' → P w s t → P w' s' t')
    (hunder : w.under faults s t = (w', s', t')) : P w' s' t' := by
  induction faults generalizing w s t with
  | nil =>
      cases hunder
      exact h
  | cons fault faults ih => exact ih (hkept _ _ _ _ _ _ _ (step_effect rfl) h) hunder

theorem under_grows (hunder : w.under faults s t = (w', s', t')) : s.Grows s' :=
  under_moments (P := fun _ s₁ _ => s.Grows s₁) (.refl s)
    (fun _ _ _ _ _ _ _ heffect hgrows => hgrows.trans heffect.grows) hunder

/-- Writing that has begun ends with no other error than that of a file. -/
theorem under_io_of_error {e : StorageError}
    (hunder : w.under faults s t = (.finished (.error e), s', t')) :
    w = .finished (.error e) ∨ ∃ cause, e = .io cause := by
  refine under_moments (P := fun w' _ _ => w' = .finished (.error e) →
    w = .finished (.error e) ∨ ∃ cause, e = .io cause) .inl ?_ hunder rfl
  rintro fault w₁ s₁ t₁ w₂ s₂ t₂ heffect ih rfl
  rcases heffect.io_of_error with rfl | hio
  · exact ih rfl
  · exact .inr hio

theorem under_finished (result : Except StorageError Unit) (faults : List (Option Fault))
    (s : Store) (t : FileTree) :
    under faults (.finished result) s t = (.finished result, s, t) := by
  induction faults with
  | nil => rfl
  | cons fault faults ih => exact ih

/-- Writing that is refused leaves the store and the files alone. -/
theorem under_refused {e : StorageError} (he : ∀ cause, e ≠ .io cause)
    (hunder : (s.write i data).under faults s t = (.finished (.error e), s', t')) :
    s' = s ∧ t' = t := by
  rcases under_io_of_error hunder with hwrite | ⟨cause, rfl⟩
  · rw [hwrite, under_finished] at hunder
    cases hunder
    exact ⟨rfl, rfl⟩
  · exact absurd rfl (he cause)

/-! ## The bitmap -/

/-- Whether the bit of the piece is behind: it is set, or will not be. -/
def isPast : Writing → Bool
  | .saving _ | .cutting _ _ | .finished _ => true
  | .placing _ _ | .opened _ _ _ | .marking _ => false

theorem saves_of_saving (bitmap : Bytes) : saves faults (.saving bitmap) s t = true := by
  cases faults <;> rfl

theorem ne_saving (hmarked : w.isMarked = false) (bitmap : Bytes) : w ≠ .saving bitmap := by
  rintro rfl
  cases hmarked

theorem saves_nil (hw : ∀ bitmap, w ≠ .saving bitmap) : w.saves [] s t = false := by
  cases w with
  | saving bitmap => exact absurd rfl (hw bitmap)
  | _ => rfl

theorem saves_cons (hw : ∀ bitmap, w ≠ .saving bitmap) :
    w.saves (fault :: faults) s t =
      saves faults (w.step fault s t).1 (w.step fault s t).2.1 (w.step fault s t).2.2 := by
  cases w with
  | saving bitmap => exact absurd rfl (hw bitmap)
  | _ => rfl

/-- Behind the bit the bitmap stays. -/
theorem Effect.past (h : Effect fault s t w w' s' t') (hw : w.isPast = true) :
    w'.isPast = true ∧ s'.completed = s.completed := by
  cases h with
  | saved => exact ⟨rfl, rfl⟩
  | closed => exact ⟨rfl, rfl⟩
  | spoiled => exact ⟨rfl, rfl⟩
  | ended => exact ⟨rfl, rfl⟩
  | _ => cases hw

theorem past_under (hw : w.isPast = true) (hunder : w.under faults s t = (w', s', t')) :
    s'.completed = s.completed := by
  refine (under_moments (P := fun w₁ s₁ _ => w₁.isPast = true ∧ s₁.completed = s.completed)
    ⟨hw, rfl⟩ ?_ hunder).2
  rintro fault w₁ s₁ t₁ w₂ s₂ t₂ heffect ⟨hpast, hsame⟩
  obtain ⟨hpast', hsame'⟩ := heffect.past hpast
  exact ⟨hpast', hsame'.trans hsame⟩

/-- Before its bit is set, a step of writing leaves the bitmap alone, or it sets the bit and has
the bitmap to write. -/
theorem Effect.completed (h : Effect fault s t w w' s' t') (htracks : w.Tracks i s)
    (hmarked : w.isMarked = false) :
    w'.isMarked = false ∧ w'.Tracks i s' ∧ s'.completed = s.completed ∨
      (∃ bitmap, w' = .saving bitmap) ∧ s'.completed = s.completed.insert i := by
  cases h with
  | opening hopen => exact .inl ⟨rfl, htracks, (Store.openSlot_store hopen).2.1⟩
  | unopened hopen => exact .inl ⟨rfl, trivial, (Store.openSlot_store hopen).2.1⟩
  | marked j =>
      obtain rfl : j = i := htracks
      exact .inr ⟨⟨_, rfl⟩, rfl⟩
  | barred => exact .inl ⟨rfl, trivial, rfl⟩
  | torn => exact .inl ⟨rfl, trivial, rfl⟩
  | saved => cases hmarked
  | closed => cases hmarked
  | spoiled => cases hmarked
  | ended => exact .inl ⟨hmarked, htracks, rfl⟩
  | _ => exact .inl ⟨rfl, htracks, rfl⟩

/-- The bitmap gets the bit of the piece if writing comes as far as it, and no other bit. -/
theorem completed_under (htracks : w.Tracks i s) (hmarked : w.isMarked = false)
    (hunder : w.under faults s t = (w', s', t')) :
    s'.completed = if w.saves faults s t then s.completed.insert i else s.completed := by
  induction faults generalizing w s t with
  | nil =>
      rw [saves_nil (ne_saving hmarked)]
      cases hunder
      rfl
  | cons fault faults ih =>
      obtain ⟨⟨w₁, s₁, t₁⟩, hstep⟩ : ∃ x, w.step fault s t = x := ⟨_, rfl⟩
      simp only [under, hstep] at hunder
      rw [saves_cons (ne_saving hmarked), hstep]
      rcases (step_effect hstep).completed htracks hmarked with
        ⟨hmarked₁, htracks₁, hsame⟩ | ⟨⟨bitmap, rfl⟩, hset⟩
      · rw [← hsame]
        exact ih htracks₁ hmarked₁ hunder
      · rw [saves_of_saving, if_pos rfl, ← hset]
        exact past_under rfl hunder

/-- Writing answers for no other piece. -/
theorem hasPiece_under (hne : j ≠ i) (htracks : w.Tracks i s) (hmarked : w.isMarked = false)
    (hunder : w.under faults s t = (w', s', t')) : s'.hasPiece j = s.hasPiece j := by
  simp only [Store.hasPiece, Bitfield.has]
  rw [completed_under htracks hmarked hunder]
  split
  next =>
    have hne' : j.toNat ≠ i.toNat := fun heq => hne (UInt32.toNat_inj.1 heq)
    simp [Bitfield.bit_insert, hne']
  next => rfl

/-! ## The files -/

/-- The writing of these bytes into the different files of a store that is laid out for a
description. -/
structure Sited (d : Descriptor) (i : PieceIndex) (data : Bytes) (w : Writing) (s : Store)
    (t : FileTree) : Prop where
  housed : s.Housed t
  fits : s.Fits d
  carries : w.Carries s t i data

theorem Effect.sited (h : Effect fault s t w w' s' t') (hw : w.Sited d i data s t) :
    w'.Sited d i data s' t' :=
  ⟨h.housed hw.housed, hw.fits.of_layout h.grows.layout, h.carries hw.housed hw.carries⟩

theorem sited_under (h : w.Sited d i data s t) (hunder : w.under faults s t = (w', s', t')) :
    w'.Sited d i data s' t' :=
  under_moments (P := Sited d i data) h (fun _ _ _ _ _ _ _ heffect hw => heffect.sited hw) hunder

/-- Behind the bit the piece stays in its files. -/
theorem Effect.lies (h : Effect fault s t w w' s' t') (hs : s.Housed t) (hw : w.isPast = true)
    (hlies : s.Lies t i data []) : s'.Lies t' i data [] := by
  cases h with
  | saved => exact hlies.resume hs _
  | closed => exact (hlies.resume hs _).extends rfl (.refl _)
  | spoiled hfailure ht =>
      rcases ht with rfl | rfl
      · exact hlies.extends rfl (.refl _)
      · exact (hlies.resume hs _).extends rfl (.refl _)
  | ended => exact hlies
  | _ => cases hw

theorem lies_under (hs : s.Housed t) (hw : w.isPast = true) (hlies : s.Lies t i data [])
    (hunder : w.under faults s t = (w', s', t')) : s'.Lies t' i data [] := by
  refine (under_moments (P := fun w s t => w.isPast = true ∧ s.Housed t ∧ s.Lies t i data [])
    ⟨hw, hs, hlies⟩ ?_ hunder).2.2
  rintro fault w₁ s₁ t₁ w₂ s₂ t₂ heffect ⟨hpast, hs₁, hlies⟩
  exact ⟨(heffect.past hpast).1, heffect.housed hs₁, heffect.lies hs₁ hpast hlies⟩

/-- Writing that comes as far as its bitmap leaves the whole piece in its files, whatever fails
then. -/
theorem Sited.lies (h : w.Sited d i data s t) (hsaves : w.saves faults s t = true)
    (hunder : w.under faults s t = (w', s', t')) : s'.Lies t' i data [] := by
  induction faults generalizing w s t with
  | nil =>
      cases w with
      | saving bitmap => exact lies_under h.housed rfl h.carries hunder
      | _ => cases hsaves
  | cons fault faults ih =>
      by_cases hw : ∃ bitmap, w = .saving bitmap
      · obtain ⟨bitmap, rfl⟩ := hw
        exact lies_under h.housed rfl h.carries hunder
      · rw [saves_cons (not_exists.1 hw)] at hsaves
        exact ih ((step_effect rfl).sited h) hsaves hunder

/-- A stretch of another piece stays in its files, whatever fails. -/
theorem Sited.holds {gs : List Segment} {start length : Nat} (h : w.Sited d i data s t)
    (hd : d.Sound) (hne : i ≠ j) (hstretch : s.Stretch j start length gs)
    (hheld : ∀ c ∈ deal gs block, s.Holds t c)
    (hunder : w.under faults s t = (w', s', t')) : ∀ c ∈ deal gs block, s'.Holds t' c := by
  refine (under_moments (P := fun w s t => w.Sited d i data s t ∧ s.Stretch j start length gs ∧
    ∀ c ∈ deal gs block, s.Holds t c) ⟨h, hstretch, hheld⟩ ?_ hunder).2.2
  rintro fault w₁ s₁ t₁ w₂ s₂ t₂ heffect ⟨hsited, hstretch, hheld⟩
  refine ⟨heffect.sited hsited, hstretch.of_layout heffect.grows.layout, fun c hc => ?_⟩
  refine heffect.holds hsited.housed hsited.carries (fun c' hnext => .inr ?_) (hheld c hc)
  obtain ⟨gs', hlaid, hc'⟩ := hsited.carries.of_next hnext
  exact hlaid.apart_stretch hstretch hsited.fits hd hne (mem_of_mem_deal hc') (mem_of_mem_deal hc)

/-- A step of writing changes no byte that is apart from the piece. -/
theorem Effect.byteAt {file p : Nat} (h : Effect fault s t w w' s' t') (hs : s.Housed t)
    (hw : w.Carries s t i data)
    (hapart : ∀ gs, s.Laid i data gs → ∀ g ∈ gs, g.Apart ⟨file, p, 1⟩) :
    s'.byteAt t' file p = s.byteAt t file p := by
  cases h.touch hw with
  | stays hlayout => exact Store.byteAt_of_layout hlayout
  | opens hlaid hg hopen => exact Store.byteAt_openSlot hs.handles hopen
  | writes n hlaid hmem hfile hmarked =>
      have hapart' := hapart _ hlaid _ (mem_of_mem_deal hmem)
      exact Store.byteAt_writeAt hs hfile (hlaid.length_take_le hmem n) hapart'
  | resumes bytes hlayout =>
      exact (Store.byteAt_of_layout hlayout).trans (Store.byteAt_resume hs bytes)

/-- The bytes of a stretch of another piece stay, whatever fails. -/
theorem Sited.bytesIn {gs : List Segment} {start length : Nat} (h : w.Sited d i data s t)
    (hd : d.Sound) (hne : i ≠ j) (hstretch : s.Stretch j start length gs)
    (hunder : w.under faults s t = (w', s', t')) : s'.bytesIn t' gs = s.bytesIn t gs := by
  refine (under_moments (P := fun w₁ s₁ t₁ => w₁.Sited d i data s₁ t₁ ∧
    s₁.Stretch j start length gs ∧ s₁.bytesIn t₁ gs = s.bytesIn t gs) ⟨h, hstretch, rfl⟩ ?_
    hunder).2.2
  rintro fault w₁ s₁ t₁ w₂ s₂ t₂ heffect ⟨hsited, hstretch, hsame⟩
  refine ⟨heffect.sited hsited, hstretch.of_layout heffect.grows.layout, Eq.trans ?_ hsame⟩
  refine Store.bytesIn_congr fun g hg k hk => ?_
  refine heffect.byteAt hsited.housed hsited.carries fun gs' hlaid g' hg' hfile => ?_
  have := hlaid.apart_stretch hstretch hsited.fits hd hne hg' hg hfile
  dsimp only
  omega

end Writing

end Torrent
