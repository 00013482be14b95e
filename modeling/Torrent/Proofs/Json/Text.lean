import Mathlib.Data.List.Basic
import Torrent.Proofs.Json.Taking

/-!
# Texts written and read

A byte is written as itself or behind a backslash (`Written`), and either way it is
read back (`Reader.takes_text`).  What is written is a text again
(`isText_encodeText`): only bytes of one-byte characters are written with a
backslash.
-/

namespace Torrent

namespace Bytes

/-- The bytes of a text. -/
def IsText (bytes : Bytes) : Prop := ∃ text, ofText text = bytes

/-- A text is what its bytes encode. -/
theorem toText?_ofText (text : String) : toText? (ofText text) = some text := by
  have hvalid : text.toUTF8.IsValidUTF8 := text.isValidUTF8
  simp only [toText?, ofText, String.fromUTF8?]
  exact dif_pos hvalid

theorem ofText_ofList (chars : List Char) :
    ofText (String.ofList chars) = chars.flatMap String.utf8EncodeChar := by
  simp only [ofText, String.toUTF8_eq_toByteArray, String.toByteArray_ofList]
  exact List.toList_data_toByteArray

theorem isText_ofText (text : String) : IsText (ofText text) := ⟨text, rfl⟩

theorem IsText.append {front rest : Bytes} (h : IsText front) (h' : IsText rest) :
    IsText (front ++ rest) := by
  obtain ⟨text, rfl⟩ := h
  obtain ⟨text', rfl⟩ := h'
  exact ⟨text ++ text', by simp [ofText]⟩

theorem utf8EncodeChar_of_lt {b : UInt8} (h : b < 0x80) :
    String.utf8EncodeChar (Char.ofNat b.toNat) = [b] := by
  have hall : ∀ k : Fin 0x80, String.utf8EncodeChar (Char.ofNat k) = [UInt8.ofNat k] := by decide
  have hb := hall ⟨b.toNat, UInt8.lt_iff_toNat_lt.1 h⟩
  rwa [UInt8.ofNat_toNat] at hb

/-- Bytes below 0x80 are characters. -/
theorem ofText_map_ofNat {bytes : Bytes} (h : ∀ b ∈ bytes, b < 0x80) :
    ofText (String.ofList (bytes.map fun b => Char.ofNat b.toNat)) = bytes := by
  rw [ofText_ofList]
  induction bytes with
  | nil => rfl
  | cons b bytes ih =>
      rw [List.map_cons, List.flatMap_cons, utf8EncodeChar_of_lt (h b (List.mem_cons_self ..)),
        ih fun x hx => h x (List.mem_cons_of_mem _ hx)]
      rfl

theorem isText_of_lt {bytes : Bytes} (h : ∀ b ∈ bytes, b < 0x80) : IsText bytes :=
  ⟨_, ofText_map_ofNat h⟩

theorem isText_singleton {b : UInt8} (h : b < 0x80) : IsText [b] :=
  isText_of_lt fun _ hx => List.mem_singleton.1 hx ▸ h

theorem le_ofNat {n : Nat} (h : 0x80 ≤ n) (hn : n < 0x100) : 0x80 ≤ UInt8.ofNat n := by
  rw [UInt8.le_iff_toNat_le, UInt8.toNat_ofNat_of_lt' hn]
  exact h

/-- The bytes of a character are one below 0x80, or no byte below. -/
theorem utf8EncodeChar_cases (c : Char) :
    (∃ b < 0x80, String.utf8EncodeChar c = [b]) ∨ ∀ b ∈ String.utf8EncodeChar c, 0x80 ≤ b := by
  unfold String.utf8EncodeChar
  dsimp only
  split
  next hsmall =>
    refine .inl ⟨_, ?_, rfl⟩
    rw [UInt8.lt_iff_toNat_lt, UInt8.toNat_ofNat_of_lt' (by change _ < 0x100; omega)]
    exact Nat.lt_succ_of_le hsmall
  next =>
    right
    split
    next =>
      simp only [List.forall_mem_cons]
      exact ⟨le_ofNat (by omega) (by omega), le_ofNat (by omega) (by omega), nofun⟩
    next =>
      split
      next =>
        simp only [List.forall_mem_cons]
        exact ⟨le_ofNat (by omega) (by omega), le_ofNat (by omega) (by omega),
          le_ofNat (by omega) (by omega), nofun⟩
      next =>
        simp only [List.forall_mem_cons]
        exact ⟨le_ofNat (by omega) (by omega), le_ofNat (by omega) (by omega),
          le_ofNat (by omega) (by omega), le_ofNat (by omega) (by omega), nofun⟩

end Bytes

namespace Json

/-- How a byte stands between quotation marks. -/
inductive Written : UInt8 → Bytes → Prop
  | plain {b : UInt8} (hmark : b ≠ 0x22) (hbackslash : b ≠ 0x5c) (hcontrol : ¬b < 0x20) :
    Written b [b]
  | letter {b letter : UInt8} (h : Reader.escapedByte? letter = some b) : Written b [0x5c, letter]
  | number {b : UInt8} (h : b < 0x20) :
    Written b [0x5c, 0x75, 0x30, 0x30, lowDigit (b.toNat / 16), lowDigit (b.toNat % 16)]

theorem written_encodeByte (b : UInt8) : Written b (encodeByte b) := by
  unfold encodeByte
  repeat' split
  any_goals
    subst_vars
    exact .letter rfl
  next h => exact .number h
  next hmark hbackslash _ _ _ _ _ hcontrol => exact .plain hmark hbackslash hcontrol

theorem encodeByte_ne_nil (b : UInt8) : encodeByte b ≠ [] := by
  have hwritten := written_encodeByte b
  generalize encodeByte b = bytes at hwritten
  cases hwritten <;> exact List.cons_ne_nil _ _

theorem length_le_length_flatMap_encodeByte (bytes : Bytes) :
    bytes.length ≤ (bytes.flatMap encodeByte).length := by
  induction bytes with
  | nil => exact Nat.le_refl _
  | cons b bytes ih =>
      have hpos := List.length_pos_iff.2 (encodeByte_ne_nil b)
      rw [List.flatMap_cons, List.length_append, List.length_cons]
      omega

theorem encodeByte_of_le {b : UInt8} (h : 0x80 ≤ b) : encodeByte b = [b] := by
  have hall : ∀ k : Fin 0x100, 0x80 ≤ UInt8.ofNat k →
      encodeByte (UInt8.ofNat k) = [UInt8.ofNat k] := by
    decide +kernel
  have hb := hall ⟨b.toNat, b.toNat_lt⟩
  rw [UInt8.ofNat_toNat] at hb
  exact hb h

theorem lt_of_mem_encodeByte {b x : UInt8} (h : b < 0x80) (hx : x ∈ encodeByte b) : x < 0x80 := by
  have hall : ∀ k : Fin 0x80, (encodeByte (UInt8.ofNat k)).all (· < 0x80) = true := by decide
  have hb := hall ⟨b.toNat, UInt8.lt_iff_toNat_lt.1 h⟩
  rw [UInt8.ofNat_toNat, List.all_eq_true] at hb
  exact of_decide_eq_true (hb x hx)

/-- What is written between quotation marks is a text. -/
theorem isText_encodeText (s : String) : Bytes.IsText (encodeText (Bytes.ofText s)) := by
  have hmark : Bytes.IsText [0x22] := Bytes.isText_singleton (by decide)
  obtain ⟨chars, rfl⟩ := s.exists_eq_ofList
  have hinside : Bytes.IsText ((Bytes.ofText (String.ofList chars)).flatMap encodeByte) := by
    rw [Bytes.ofText_ofList, List.flatMap_assoc]
    induction chars with
    | nil => exact Bytes.isText_ofText ""
    | cons c chars ih =>
        rw [List.flatMap_cons]
        refine Bytes.IsText.append ?_ ih
        rcases Bytes.utf8EncodeChar_cases c with ⟨b, hb, hc⟩ | hall
        · rw [hc, List.flatMap_singleton]
          exact Bytes.isText_of_lt fun x hx => lt_of_mem_encodeByte hb hx
        · rw [List.flatMap_congr fun b hb => encodeByte_of_le (hall b hb),
            List.flatMap_singleton', ← List.flatMap_singleton String.utf8EncodeChar c,
            ← Bytes.ofText_ofList]
          exact Bytes.isText_ofText _
  exact (hmark.append hinside).append hmark

namespace Reader

variable {a b c d : UInt8} {n : Nat}

theorem takes_hexWord (h : hexWord? a b c d = some n) (rest : Bytes) :
    Takes hexWord [a, b, c, d] rest n := by
  refine .get fun cursor hrest => ?_
  rw [hrest]
  refine .skip (.skip (.skip (.skip ?_)))
  rw [h]
  exact .pure n rest

/-- The digits of a control character spell it. -/
theorem hexWord?_lowDigit (hn : n < 0x20) :
    hexWord? 0x30 0x30 (lowDigit (n / 16)) (lowDigit (n % 16)) = some n ∧
      utf8 n = [UInt8.ofNat n] := by
  have hall : ∀ k : Fin 0x20,
      hexWord? 0x30 0x30 (lowDigit (k / 16)) (lowDigit (k % 16)) = some k.1 ∧
        utf8 k = [UInt8.ofNat k] := by
    decide
  exact hall ⟨n, hn⟩

theorem takes_escape_letter {letter : UInt8} (h : escapedByte? letter = some b) (rest : Bytes) :
    Takes escape [letter] rest [b] := by
  refine .take ?_
  dsimp only
  rw [h]
  exact .pure [b] rest

theorem takes_escape_number (h : b < 0x20) (rest : Bytes) :
    Takes escape [0x75, 0x30, 0x30, lowDigit (b.toNat / 16), lowDigit (b.toNat % 16)] rest [b] := by
  obtain ⟨hword, hutf8⟩ := hexWord?_lowDigit (UInt8.lt_iff_toNat_lt.1 h)
  rw [UInt8.ofNat_toNat] at hutf8
  refine .take ((takes_hexWord hword ([] ++ rest)).bind ?_)
  have hsmall : b.toNat < 0xd800 := Nat.lt_trans (UInt8.lt_iff_toNat_lt.1 h) (by decide)
  rw [if_neg (by omega), if_pos (.inl hsmall), hutf8]
  exact .pure [b] rest

theorem takes_textBytes (bytes : Bytes) {fuel : Nat} (hfuel : bytes.length < fuel) (front : Bytes)
    (rest : Bytes) :
    Takes (textBytes fuel front) (bytes.flatMap encodeByte ++ [0x22]) rest
      (front.reverse ++ bytes) := by
  induction bytes generalizing fuel front with
  | nil =>
      cases fuel with
      | zero => cases hfuel
      | succ fuel =>
          rw [List.append_nil]
          exact .take (.pure _ rest)
  | cons b bytes ih =>
      cases fuel with
      | zero => cases hfuel
      | succ fuel =>
          have hfuel : bytes.length < fuel := Nat.lt_of_succ_lt_succ hfuel
          have hlater := ih hfuel (b :: front)
          rw [List.reverse_cons, List.append_assoc, List.singleton_append] at hlater
          have hwritten := written_encodeByte b
          rw [List.flatMap_cons, List.append_assoc]
          generalize encodeByte b = written at hwritten
          cases hwritten with
          | plain hmark hbackslash hcontrol =>
              refine .take ?_
              dsimp only
              rw [if_neg hmark, if_neg hbackslash, if_neg hcontrol]
              exact hlater
          | letter h => exact .take ((takes_escape_letter h _).bind hlater)
          | number h => exact .take ((takes_escape_number h _).bind hlater)

/-- A text is read as it was written. -/
theorem takes_text (s : String) (rest : Bytes) :
    Takes text ((Bytes.ofText s).flatMap encodeByte ++ [0x22]) rest s := by
  have hlength := length_le_length_flatMap_encodeByte (Bytes.ofText s)
  refine .fuel ((takes_textBytes (Bytes.ofText s) ?_ [] rest).followed ?_)
  · rw [List.length_append, List.length_append]
    omega
  · rw [List.reverse_nil, List.nil_append, Bytes.toText?_ofText]
    exact .pure s rest

end Reader

end Json

end Torrent
