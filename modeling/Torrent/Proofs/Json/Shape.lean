import Torrent.Proofs.Json.Number

/-!
# Lists and records written and read

A list is read as it was written if its elements are (`Reader.reads_list`), and a
record if its fields are, one after the other (`Reader.reads_record`).
-/

namespace Torrent.Json

open Descriptor (commaJson recordJson listJson fieldJson textJson)

theorem commaJson_cons (a : Bytes) (rest : List Bytes) :
    commaJson (a :: rest) = a ++ rest.flatMap (0x2c :: ·) := by
  induction rest generalizing a with
  | nil => exact (List.append_nil a).symm
  | cons b rest ih =>
      show a ++ 0x2c :: commaJson (b :: rest) = _
      rw [ih, List.flatMap_cons, List.cons_append]

theorem length_le_length_commaJson (parts : List Bytes) :
    parts.length ≤ (commaJson parts).length + 1 := by
  cases parts with
  | nil => exact Nat.zero_le _
  | cons a rest =>
      have hcommas : rest.length ≤ (rest.flatMap (0x2c :: ·)).length := by
        induction rest with
        | nil => exact Nat.le_refl _
        | cons b rest ih =>
            simp only [List.flatMap_cons, List.length_append, List.length_cons]
            omega
      rw [commaJson_cons, List.length_append, List.length_cons]
      omega

theorem isText_commaJson {parts : List Bytes} (h : ∀ a ∈ parts, Bytes.IsText a) :
    Bytes.IsText (commaJson parts) := by
  have hcomma : Bytes.IsText [0x2c] := Bytes.isText_singleton (by decide)
  cases parts with
  | nil => exact Bytes.isText_ofText ""
  | cons a rest =>
      rw [commaJson_cons]
      refine (h a (List.mem_cons_self ..)).append ?_
      have hrest : ∀ b ∈ rest, Bytes.IsText b := fun b hb => h b (List.mem_cons_of_mem _ hb)
      clear h
      induction rest with
      | nil => exact Bytes.isText_ofText ""
      | cons b rest ih =>
          rw [List.flatMap_cons]
          exact (hcomma.append (hrest b (List.mem_cons_self ..))).append
            (ih fun x hx => hrest x (List.mem_cons_of_mem _ hx))

theorem isText_listJson {elements : List Bytes} (h : ∀ a ∈ elements, Bytes.IsText a) :
    Bytes.IsText (listJson elements) := by
  have hopen : Bytes.IsText [0x5b] := Bytes.isText_singleton (by decide)
  have hclose : Bytes.IsText [0x5d] := Bytes.isText_singleton (by decide)
  exact (hopen.append (isText_commaJson h)).append hclose

theorem isText_recordJson {fields : List Bytes} (h : ∀ a ∈ fields, Bytes.IsText a) :
    Bytes.IsText (recordJson fields) := by
  have hopen : Bytes.IsText [0x7b] := Bytes.isText_singleton (by decide)
  have hclose : Bytes.IsText [0x7d] := Bytes.isText_singleton (by decide)
  exact (hopen.append (isText_commaJson h)).append hclose

theorem isText_fieldJson (name : String) {value : Bytes} (h : Bytes.IsText value) :
    Bytes.IsText (fieldJson name value) := by
  have hcolon : Bytes.IsText [0x3a] := Bytes.isText_singleton (by decide)
  exact (isText_encodeText name).append (hcolon.append h)

namespace Reader

variable {α σ : Type} {rest : Bytes}

/-- What separates the elements of a list or the fields of a record, or closes it, stops a value. -/
theorem stops_flatMap (others : List Bytes) {close : UInt8} (hclose : close = 0x5d ∨ close = 0x7d)
    (rest : Bytes) : Stops (others.flatMap (0x2c :: ·) ++ close :: rest) := by
  cases others with
  | nil =>
      rcases hclose with rfl | rfl
      · exact .inr (.inr (.inl rfl))
      · exact .inr (.inr (.inr rfl))
  | cons a others => exact .inr (.inl rfl)

/-- A text is read as it was written. -/
theorem reads_string (wanted s : String) : Reads (string wanted) (textJson s) s := fun rest _ =>
  .value rfl (.skip (takes_text s rest))

/-! ## Lists -/

/-- What an element of a list can begin with comes next. -/
def Begins (bytes : Bytes) : Prop := ∃ b rest, bytes = b :: rest ∧ isSpace b = false ∧ b ≠ 0x5d

theorem Begins.append {bytes : Bytes} (h : Begins bytes) (rest : Bytes) :
    Begins (bytes ++ rest) := by
  obtain ⟨b, more, rfl, hb⟩ := h
  exact ⟨b, more ++ rest, rfl, hb⟩

theorem takes_moreElements_end (first : Bool) (rest : Bytes) :
    Takes (moreElements first) [] (0x5d :: rest) false :=
  .next rfl rfl (.pure false _)

theorem takes_moreElements_first (h : Begins rest) : Takes (moreElements true) [] rest true := by
  obtain ⟨b, more, rfl, hspace, hopen⟩ := h
  refine .next rfl hspace ?_
  dsimp only
  rw [if_neg hopen, if_pos rfl]
  exact .pure true _

theorem takes_moreElements_comma (h : Begins rest) :
    Takes (moreElements false) [0x2c] rest true := by
  obtain ⟨b, more, rfl, hspace, hopen⟩ := h
  refine .next rfl rfl (.skip (.next rfl hspace ?_))
  split
  next heq => exact absurd (Option.some.inj heq) hopen
  next => exact .pure true _
  next heq => cases heq

theorem takes_listEnd (rest : Bytes) : Takes listEnd [0x5d] rest () :=
  .next rfl rfl (.skip_last 0x5d rest)

section

variable {element : Reader α} {write : α → Bytes} (helement : ∀ a, Reads element (write a) a)
  (hbegins : ∀ a, Begins (write a))
include helement hbegins

/-- The elements behind the first. -/
theorem takes_elements_others (as : List α) {fuel : Nat} (hfuel : as.length < fuel)
    {front : List α} (hfront : front ≠ []) (rest : Bytes) :
    Takes (elements element fuel front) ((as.map write).flatMap (0x2c :: ·)) (0x5d :: rest)
      (front.reverse ++ as) := by
  have hlater : front.isEmpty = false := List.isEmpty_eq_false_iff.2 hfront
  induction as generalizing fuel front with
  | nil =>
      cases fuel with
      | zero => cases hfuel
      | succ fuel =>
          rw [List.append_nil]
          exact (takes_moreElements_end _ rest).followed (.pure _ _)
  | cons a as ih =>
      cases fuel with
      | zero => cases hfuel
      | succ fuel =>
          have hothers := ih (Nat.lt_of_succ_lt_succ hfuel) (List.cons_ne_nil a front) rfl
          rw [List.reverse_cons, List.append_assoc, List.singleton_append] at hothers
          have hstops := stops_flatMap (as.map write) (.inl rfl) rest
          have hmore := takes_moreElements_comma
            (((hbegins a).append ((as.map write).flatMap (0x2c :: ·))).append (0x5d :: rest))
          rw [← hlater] at hmore
          exact hmore.bind ((helement a _ hstops).bind hothers)

theorem takes_elements (as : List α) {fuel : Nat} (hfuel : as.length < fuel) (rest : Bytes) :
    Takes (elements element fuel []) (commaJson (as.map write)) (0x5d :: rest) as := by
  cases fuel with
  | zero => cases hfuel
  | succ fuel =>
      cases as with
      | nil => exact (takes_moreElements_end _ rest).followed (.pure _ _)
      | cons a as =>
          have hothers := takes_elements_others helement hbegins as
            (Nat.lt_of_succ_lt_succ hfuel) (List.cons_ne_nil a []) rest
          have hstops := stops_flatMap (as.map write) (.inl rfl) rest
          have hmore := takes_moreElements_first
            (((hbegins a).append ((as.map write).flatMap (0x2c :: ·))).append (0x5d :: rest))
          rw [List.map_cons, commaJson_cons]
          exact hmore.bind ((helement a _ hstops).bind hothers)

/-- A list is read as it was written. -/
theorem reads_list (as : List α) : Reads (list element) (listJson (as.map write)) as := by
  intro rest _
  have hlength := length_le_length_commaJson (as.map write)
  rw [List.length_map] at hlength
  refine .value rfl (.skip (.closedBy (.fuel ?_) (takes_listEnd rest)))
  refine takes_elements helement hbegins as ?_ rest
  rw [List.length_append, List.length_append]
  simp only [List.length_cons]
  omega

end

/-! ## Records -/

theorem takes_moreFields_end (first : Bool) (rest : Bytes) :
    Takes (moreFields first) [] (0x7d :: rest) false :=
  .next rfl rfl (.pure false _)

theorem takes_moreFields_first (rest : Bytes) : Takes (moreFields true) [0x22] rest true :=
  .next rfl rfl (.skip (.pure true rest))

theorem takes_moreFields_comma (rest : Bytes) :
    Takes (moreFields false) [0x2c, 0x22] rest true :=
  .next rfl rfl (.skip (.next rfl rfl (.skip (.pure true rest))))

theorem takes_objectEnd (rest : Bytes) : Takes objectEnd [0x7d] rest () :=
  .next rfl rfl (.skip_last 0x7d rest)

/-- A value behind a colon is that of a field that was not there yet. -/
theorem reads_once {read : Reader α} {bytes : Bytes} {a : α} (h : Reads read bytes a)
    (name : String) : Reads (once name none read) (0x3a :: bytes) (some a) := by
  intro rest hrest
  have hcolon : Takes colon [0x3a] (bytes ++ rest) () := .next rfl rfl (.skip_last 0x3a _)
  exact hcolon.bind ((h rest hrest).followed (.pure _ rest))

/-- What the fields of a record make of what was found before, each behind its colon. -/
inductive Fills (field : String → σ → Reader σ) : σ → List Bytes → σ → Prop
  | nil (s : σ) : Fills field s [] s
  | cons {s s' s'' : σ} {name : String} {value : Bytes} {others : List Bytes}
    (h : Reads (field name s) (0x3a :: value) s') (hothers : Fills field s' others s'') :
    Fills field s (fieldJson name value :: others) s''

section

variable {field : String → σ → Reader σ} {s s' : σ} {parts : List Bytes}

theorem fieldJson_append (name : String) (value rest : Bytes) :
    fieldJson name value ++ rest =
      0x22 :: (((Bytes.ofText name).flatMap encodeByte ++ [0x22]) ++ (0x3a :: value ++ rest)) := by
  simp only [fieldJson, textJson, encodeText, List.append_assoc, List.cons_append]

/-- The fields behind the first. -/
theorem takes_fields_others (h : Fills field s parts s') {fuel : Nat}
    (hfuel : parts.length < fuel) (rest : Bytes) :
    Takes (fields field fuel false s) (parts.flatMap (0x2c :: ·)) (0x7d :: rest) s' := by
  induction h generalizing fuel with
  | nil s =>
      cases fuel with
      | zero => cases hfuel
      | succ fuel => exact (takes_moreFields_end false rest).followed (.pure s _)
  | @cons s s' s'' name value others h hothers ih =>
      cases fuel with
      | zero => cases hfuel
      | succ fuel =>
          have hstops := stops_flatMap others (.inr rfl) rest
          have hlater := ih (Nat.lt_of_succ_lt_succ hfuel)
          rw [List.flatMap_cons, List.cons_append, fieldJson_append]
          exact (takes_moreFields_comma _).bind
            ((takes_text name _).bind ((h _ hstops).bind hlater))

theorem takes_fields (h : Fills field s parts s') {fuel : Nat} (hfuel : parts.length < fuel)
    (rest : Bytes) :
    Takes (fields field fuel true s) (commaJson parts) (0x7d :: rest) s' := by
  cases fuel with
  | zero => cases hfuel
  | succ fuel =>
      cases h with
      | nil => exact (takes_moreFields_end true rest).followed (.pure s _)
      | @cons _ s' _ name value others h hothers =>
          have hstops := stops_flatMap others (.inr rfl) rest
          have hlater := takes_fields_others hothers (Nat.lt_of_succ_lt_succ hfuel) rest
          rw [commaJson_cons, fieldJson_append]
          exact (takes_moreFields_first _).bind
            ((takes_text name _).bind ((h _ hstops).bind hlater))

/-- A record is read as it was written. -/
theorem reads_record {finish : σ → Reader α} {a : α} (h : Fills field s parts s')
    (hfinish : ∀ rest, Takes (finish s') [] rest a) (wanted : String) (asList : Reader α) :
    Reads (record wanted (do finish (← fields field (← fuel) true s)) asList)
      (recordJson parts) a := by
  intro rest _
  have hlength := length_le_length_commaJson parts
  refine .value rfl (.skip (.closedBy (.fuel ?_) (takes_objectEnd rest)))
  refine (takes_fields h ?_ rest).followed (hfinish _)
  rw [List.length_append, List.length_append]
  simp only [List.length_cons]
  omega

end

end Reader

end Torrent.Json
