import Torrent.Json.Value

/-!
# Readers that take the front of a text

A reader takes the front of a text if it gives a value and stops there
(`Reader.Takes`).  How far it goes may depend on what comes behind, so the rest of the
text is part of the statement.

A reader that is made of others takes what they take, one after the other
(`Reader.Takes.bind`).  A value is read if it is taken in front of whatever can stand
behind a value (`Reader.Reads`), and then a text that is this value is read
(`Reader.whole_eq_ok`).
-/

namespace Torrent.Json

/-- The cursor stands in front of these bytes. -/
structure Cursor.At (c : Cursor) (bytes : Bytes) : Prop where
  rest : c.rest = bytes
  left : c.left = bytes.length

theorem Cursor.At.advance {c : Cursor} {b : UInt8} {bytes : Bytes} (h : c.At (b :: bytes)) :
    c.advance.At bytes := by
  simp only [Cursor.advance]
  rw [h.rest]
  exact ⟨rfl, by rw [h.left]; rfl⟩

theorem Cursor.At.jump {c : Cursor} {front bytes : Bytes} (h : c.At (front ++ bytes)) :
    (c.jump front.length).At bytes := by
  refine ⟨?_, ?_⟩
  · show c.rest.drop front.length = bytes
    rw [h.rest, List.drop_left]
  · show c.left - front.length = bytes.length
    rw [h.left, List.length_append, Nat.add_sub_cancel_left]

namespace Reader

variable {α β : Type} {read : Reader α} {front front' rest : Bytes} {a : α} {b : UInt8}

theorem skipSpace_eq {bytes : Bytes} (h : ∀ b ∈ bytes.head?, isSpace b = false) (left : Nat)
    (p : Place) : skipSpace bytes left p = ⟨bytes, left, p⟩ := by
  cases bytes with
  | nil => rfl
  | cons b bytes =>
      simp only [skipSpace]
      rw [h b rfl, if_neg Bool.false_ne_true]

/-- The reader takes the front of a text and gives this value, when this rest comes behind. -/
def Takes (read : Reader α) (front rest : Bytes) (a : α) : Prop :=
  ∀ c : Cursor, c.At (front ++ rest) → ∃ c', read c = .ok a c' ∧ c'.At rest

namespace Takes

theorem pure (a : α) (rest : Bytes) : Takes (return a) [] rest a := fun c hc => ⟨c, rfl, hc⟩

theorem bind {onward : α → Reader β} {x : β} (h : Takes read front (front' ++ rest) a)
    (hon : Takes (onward a) front' rest x) : Takes (read >>= onward) (front ++ front') rest x := by
  intro c hc
  rw [List.append_assoc] at hc
  obtain ⟨c', hread, hc'⟩ := h c hc
  obtain ⟨c'', honward, hc''⟩ := hon c' hc'
  refine ⟨c'', ?_, hc''⟩
  show EStateM.bind read onward c = _
  simp only [EStateM.bind]
  rw [hread]
  exact honward

/-- What is done with a value that was taken takes nothing more. -/
theorem followed {onward : α → Reader β} {x : β} (h : Takes read front rest a)
    (hon : Takes (onward a) [] rest x) : Takes (read >>= onward) front rest x := by
  have hboth := h.bind hon
  rwa [List.append_nil] at hboth

theorem get {onward : Cursor → Reader α}
    (h : ∀ c : Cursor, c.rest = front ++ rest → Takes (onward c) front rest a) :
    Takes (MonadState.get >>= onward) front rest a := fun c hc => h c hc.rest c hc

/-! ## Single bytes -/

theorem peek {onward : Option UInt8 → Reader α}
    (h : Takes (onward (front ++ rest).head?) front rest a) :
    Takes (Reader.peek >>= onward) front rest a := by
  have hpeek : Takes Reader.peek [] (front ++ rest) (front ++ rest).head? := by
    intro c hc
    refine ⟨c, ?_, hc⟩
    show EStateM.Result.ok c.rest.head? c = _
    rw [hc.rest]
    rfl
  exact hpeek.bind h

theorem skip_last (b : UInt8) (rest : Bytes) : Takes Reader.skip [b] rest () := fun c hc =>
  ⟨c.advance, rfl, hc.advance⟩

theorem skip {onward : Unit → Reader α} (h : Takes (onward ()) front rest a) :
    Takes (Reader.skip >>= onward) (b :: front) rest a :=
  (skip_last b _).bind h

theorem take {onward : Option UInt8 → Reader α} (h : Takes (onward (some b)) front rest a) :
    Takes (Reader.take >>= onward) (b :: front) rest a := by
  have htake : Takes Reader.take [b] (front ++ rest) (some b) := by
    intro c hc
    refine ⟨c.advance, ?_, hc.advance⟩
    show EStateM.Result.ok c.rest.head? c.advance = _
    rw [hc.rest]
    rfl
  exact htake.bind h

/-- What comes next, where no blank comes next. -/
theorem next_head {onward : Option UInt8 → Reader α}
    (hspace : ∀ b ∈ (front ++ rest).head?, isSpace b = false)
    (h : Takes (onward (front ++ rest).head?) front rest a) :
    Takes (Reader.next >>= onward) front rest a := by
  have hnext : Takes Reader.next [] (front ++ rest) (front ++ rest).head? := by
    intro c hc
    have hstays : skipSpace c.rest c.left c.place = c := by
      rw [hc.rest, List.nil_append, skipSpace_eq hspace]
      exact congrArg (Cursor.mk · c.left c.place) hc.rest.symm
    refine ⟨c, ?_, hc⟩
    show EStateM.Result.ok (skipSpace c.rest c.left c.place).rest.head?
      (skipSpace c.rest c.left c.place) = _
    rw [hstays, hc.rest]
    rfl
  exact hnext.bind h

/-- A byte that is no blank is the next one. -/
theorem next {onward : Option UInt8 → Reader α} (hb : (front ++ rest).head? = some b)
    (hspace : isSpace b = false) (h : Takes (onward (some b)) front rest a) :
    Takes (Reader.next >>= onward) front rest a := by
  refine next_head (fun c hc => ?_) (hb.symm ▸ h)
  cases hb.symm.trans hc
  exact hspace

theorem fuel {onward : Nat → Reader α}
    (h : Takes (onward ((front ++ rest).length + 1)) front rest a) :
    Takes (Reader.fuel >>= onward) front rest a := by
  have hfuel : Takes Reader.fuel [] (front ++ rest) ((front ++ rest).length + 1) := by
    intro c hc
    refine ⟨c, ?_, hc⟩
    show EStateM.Result.ok (c.left + 1) c = _
    rw [hc.left]
    rfl
  exact hfuel.bind h

/-! ## Readers around readers -/

theorem placed (h : Takes read front rest a) : Takes (Reader.placed read) front rest a := by
  intro c hc
  obtain ⟨c', hread, hc'⟩ := h c hc
  refine ⟨c', ?_, hc'⟩
  simp only [Reader.placed]
  rw [hread]

theorem closedBy {close : Reader Unit} (h : Takes read front (front' ++ rest) a)
    (hclose : Takes close front' rest ()) :
    Takes (Reader.closedBy read close) (front ++ front') rest a := by
  intro c hc
  rw [List.append_assoc] at hc
  obtain ⟨c', hread, hc'⟩ := h c hc
  obtain ⟨c'', hend, hc''⟩ := hclose c' hc'
  refine ⟨c'', ?_, hc''⟩
  simp only [Reader.closedBy]
  rw [hread]
  dsimp only
  rw [hend]

theorem value {read : UInt8 → Reader α} (hspace : isSpace b = false)
    (h : Takes (read b) (b :: front) rest a) : Takes (Reader.value read) (b :: front) rest a :=
  next rfl hspace h.placed

end Takes

/-! ## Values -/

/-- Nothing comes behind a value, or a byte that separates values or closes them. -/
def Stops (rest : Bytes) : Prop :=
  rest.head? = none ∨ rest.head? = some 0x2c ∨ rest.head? = some 0x5d ∨ rest.head? = some 0x7d

/-- The reader takes these bytes in front of any end of a value. -/
def Reads (read : Reader α) (bytes : Bytes) (a : α) : Prop :=
  ∀ rest, Stops rest → Takes read bytes rest a

theorem Reads.map {bytes : Bytes} (h : Reads read bytes a) (f : α → β) :
    Reads (do return f (← read)) bytes (f a) := fun rest hrest =>
  (h rest hrest).followed (.pure (f a) rest)

/-- Behind a value that is all of a text, nothing comes next. -/
theorem Reads.all {text : Bytes} {onward : α → Option UInt8 → Reader α}
    {result : EStateM.Result Fault Cursor α} (h : Reads read text a)
    (hresult : (do onward (← read) (← next) : Reader α) (.start text) = result)
    (hon : onward a none = return a) : ∃ c, result = .ok a c := by
  have hstart : (Cursor.start text).At (text ++ []) :=
    ⟨(List.append_nil _).symm, by simp [Cursor.start]⟩
  have hend : Takes (do onward a (← next)) [] [] a := by
    refine .next_head (fun b hb => ?_) ?_
    · cases hb
    · show Takes (onward a none) [] [] a
      rw [hon]
      exact .pure a []
  have hall : Takes (do onward (← read) (← next)) text [] a := (h [] (.inl rfl)).followed hend
  obtain ⟨c, hread, -⟩ := hall (.start text) hstart
  exact ⟨c, hresult.symm.trans hread⟩

/-- A value that is all of a text is read. -/
theorem whole_eq_ok {text : Bytes} (h : Reads read text a) : whole read text = .ok a := by
  simp only [whole]
  split
  next hresult =>
    obtain ⟨c, hc⟩ := h.all hresult rfl
    cases hc
    rfl
  next hresult =>
    obtain ⟨c, hc⟩ := h.all hresult rfl
    cases hc

end Reader

end Torrent.Json
