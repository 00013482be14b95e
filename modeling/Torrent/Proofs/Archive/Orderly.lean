import Torrent.Proofs.Archive.Manned

/-!
# Pieces under several calls

Where no two calls write different bytes for one piece, no call gets in the way of
another: a chunk of a piece that is in its file stays there through every turn
(`Archive.Orderly.holds`).  So every call that writes has placed what it has behind
it at every moment (`Archive.Orderly`), whatever effects have failed.
-/

namespace Torrent.Archive

variable {d : Descriptor} {acts : List Act} {a b : Archive} {e : Act} {i j : PieceIndex}
  {data : Bytes} {w : Writing}

/-- No two of these acts have different bytes for one piece. -/
def Agree (acts : List Act) : Prop :=
  ∀ i data data', .write i data ∈ acts → .write i data' ∈ acts → data = data'

/-- Whether two acts do not have different bytes for one piece. -/
def Act.agrees : Act → Act → Bool
  | .write i data, .write j data' => i != j || data == data'
  | _, _ => true

theorem agree_iff : Agree acts ↔ ∀ e ∈ acts, ∀ e' ∈ acts, e.agrees e' = true := by
  constructor
  · intro h e he e' he'
    cases e with
    | write i data =>
        cases e' with
        | write j data' =>
            by_cases hij : i = j
            · subst hij
              simpa [Act.agrees] using h i data data' he he'
            · simp [Act.agrees, hij]
        | _ => rfl
    | _ => rfl
  · intro h i data data' hdata hdata'
    simpa [Act.agrees] using h _ hdata _ hdata'

instance (acts : List Act) : Decidable (Agree acts) := decidable_of_iff _ agree_iff.symm

/-- An archive whose calls were all asked for and have placed what they have behind them. -/
structure Orderly (d : Descriptor) (acts : List Act) (a : Archive) : Prop extends Manned d a where
  nodup : (a.store.places a.tree).Nodup
  asked : ∀ i data w, .write i data w ∈ a.calls → .write i data ∈ acts
  carries : ∀ i data w, .write i data w ∈ a.calls → w.Carries a.store a.tree i data

namespace Orderly

theorem housed (h : a.Orderly d acts) : a.store.Housed a.tree := ⟨h.settled, h.nodup⟩

/-- A chunk of a piece stays in its file, if no call writes other bytes for that piece. -/
theorem holds (h : a.Orderly d acts) (hd : d.Sound) (hturn : Turn a e b)
    (hagree : ∀ data', .write j data' ∈ acts → data = data') {gs : List Segment}
    (hlaid : a.store.Laid j data gs) {c : Chunk} (hmem : c ∈ deal gs data)
    (hc : a.store.Holds a.tree c) : b.store.Holds b.tree c := by
  cases hturn with
  | written => exact hc
  | read => exact hc
  | absent => exact hc
  | @wrote k fault i data' w w' s t hcall heffect =>
      have hwrite := List.mem_of_getElem? hcall
      refine heffect.holds_of_agree h.housed h.fits hd (h.carries i data' w hwrite) ?_ hlaid hmem hc
      rintro rfl
      exact hagree data' (h.asked i data' w hwrite)
  | took hcall hstep =>
      exact hc.extends (Reading.step_store hstep).1
        (Reading.step_handles h.housed.handles hstep).1
  | released file => exact hc.of_layout (a.store.layout_release file)

/-- A piece stays in its files, if no call writes other bytes for it. -/
theorem lies (h : a.Orderly d acts) (hd : d.Sound) (hturn : Turn a e b)
    (hagree : ∀ data', .write j data' ∈ acts → data = data')
    (hlies : a.store.Lies a.tree j data []) : b.store.Lies b.tree j data [] := by
  have hlater := hturn.later h.settled
  exact hlies.of_holds hlater.grows.layout fun gs hlaid c hmem hc =>
    h.holds hd hturn hagree hlaid hmem hc

theorem turn (h : a.Orderly d acts) (hd : d.Sound) (hagree : Agree acts) (he : e ∈ acts)
    (hturn : Turn a e b) : b.Orderly d acts := by
  have hlater := hturn.later h.settled
  have hlayout := hlater.grows.layout
  refine ⟨h.toManned.turn hturn, (hlater.housed h.housed).nodup, ?_, ?_⟩
  · intro i data w' hcall
    rcases hturn.writing hcall with hold | ⟨rfl, -⟩ | ⟨k, fault, w, -, hold, -⟩
    · exact h.asked i data w' hold
    · exact he
    · exact h.asked i data w (List.mem_of_getElem? hold)
  · intro i data w' hcall
    rcases hturn.writing hcall with hold | ⟨-, rfl⟩ | ⟨k, fault, w, -, hold, heffect⟩
    · have hasked := h.asked i data w' hold
      refine (h.carries i data w' hold).of_holds hlayout hlater.keeps fun gs hlaid c hmem hc => ?_
      exact h.holds hd hturn (fun data' => hagree i data data' hasked) hlaid hmem hc
    · exact Writing.carries_write b.store b.tree i data
    · exact heffect.carries h.housed (h.carries i data w (List.mem_of_getElem? hold))

/-- A turn leaves the resume file alone, unless a call works on the bitmap. -/
theorem resume (h : a.Orderly d acts) (hturn : Turn a e b) :
    b.tree.content b.store.resume = a.tree.content a.store.resume ∨
      ∃ k fault i data w, e = .proceed k fault ∧ a.calls[k]? = some (.write i data w) ∧
        ((∃ bitmap, w = .saving bitmap ∧ b.tree.content b.store.resume =
          (a.tree.content a.store.resume).writeAt 0 (Fault.passed fault bitmap)) ∨
        ∃ n failure, w = .cutting n failure ∧
          b.tree.content b.store.resume = (a.tree.content a.store.resume).resize n) := by
  rw [(hturn.later h.settled).resume_eq]
  cases hturn with
  | wrote hcall heffect =>
      rcases heffect.resume h.settled with hsame | hsaving | hcutting | hopened
      · exact .inl hsame
      · exact .inr ⟨_, _, _, _, _, rfl, hcall, .inl hsaving⟩
      · exact .inr ⟨_, _, _, _, _, rfl, hcall, .inr hcutting⟩
      · obtain ⟨j, c, rest, rfl⟩ := hopened
        obtain ⟨-, -, hfile⟩ := h.carries _ _ _ (List.mem_of_getElem? hcall)
        exact absurd rfl (h.housed.ne_resume (hfile c rest rfl).standsAt)
  | took hcall hstep =>
      exact .inl ((Reading.step_handles h.housed.handles hstep).1.content _)
  | _ => exact .inl rfl

theorem run (h : a.Orderly d acts) (hd : d.Sound) (hagree : Agree acts) {part : List Act}
    (hpart : ∀ e ∈ part, e ∈ acts) : (a.run part).Orderly d acts :=
  run_moments (P := Orderly d acts) h fun e he _ _ hturn hb => hb.turn hd hagree (hpart e he) hturn

/-- A piece that was written lies in its files and is reported. -/
theorem of_finished (h : a.Orderly d acts) (hcall : .write i data (.finished (.ok ())) ∈ a.calls) :
    a.store.Lies a.tree i data [] ∧ a.store.hasPiece i = true :=
  ⟨h.carries i data _ hcall, h.tracks i data _ hcall⟩

end Orderly

/-- A store that was opened is in order before the first call. -/
theorem orderly_idle {s : Store} {t t' : FileTree} {root name : List Char}
    (hopen : Store.open_ t root d name = (.ok s, t'))
    (hnodup : (Store.placesOf t root name d).Nodup) (acts : List Act) :
    (idle s t').Orderly d acts :=
  ⟨manned_idle hopen, (Store.housed_open hopen hnodup).nodup, nofun, nofun⟩

end Torrent.Archive
