import Torrent.Json.Number
import Torrent.Json.Text

/-!
# Values in JSON

Readers for the values that a shape is made of: numbers, texts, lists and
records.  A record may be given as an object or as the list of its fields in
order.  Fields that are not known are passed over whatever they hold, however
deeply nested.
-/

namespace Torrent.Json.Reader

/-- The value that begins here is another one than the one wanted.  What is named in the message is
read to its end; a list or an object is not. -/
def otherValue {α : Type} (wanted : String) : Reader α := do
  let wrong (found : Found) : Reader α := mismatch (.wrongType found wanted)
  match ← peek with
  | some 0x6e => skip; word (Bytes.ofText "ull"); wrong .null
  | some 0x74 => skip; word (Bytes.ofText "rue"); wrong (.bool true)
  | some 0x66 => skip; word (Bytes.ofText "alse"); wrong (.bool false)
  | some 0x2d => skip; wrong (← number false).found
  | some 0x22 => skip; wrong (.text (← text))
  | some 0x5b => wrong .list
  | some 0x7b => wrong .object
  | some b => if isDigit b then wrong (← number true).found else failAhead .noValue
  | none => failAhead .noValue

/-- A value that begins behind blanks, read by what its first byte calls for. -/
def value {α : Type} (read : UInt8 → Reader α) : Reader α := do
  match ← next with
  | none => failAhead .endInValue
  | some b => placed (read b)

/-- A whole number below 2^64. -/
def natural : Reader UInt64 := value fun b => do
  let wanted := "u64"
  let use (n : Number) : Reader UInt64 :=
    match n with
    | .natural n => return n
    | .negative n => mismatch (.wrongValue (.integer n) wanted)
    | .fraction x => mismatch (.wrongType (.fraction (floatText x)) wanted)
  if b = 0x2d then
    skip
    use (← number false)
  else if isDigit b then use (← number true)
  else otherValue wanted

/-- A text. -/
def string (wanted : String) : Reader String := value fun b => do
  if b = 0x22 then
    skip
    text
  else otherValue wanted

/-- Whether another element of a list follows. -/
def moreElements (first : Bool) : Reader Bool := do
  match ← next with
  | none => failAhead .endInList
  | some b =>
    if b = 0x5d then return false
    else if first then return true
    else if b = 0x2c then
      skip
      match ← next with
      | some 0x5d => failAhead .trailingComma
      | some _ => return true
      | none => failAhead .endInValue
    else failAhead .noListEnd

/-- The end of a list. -/
def listEnd : Reader Unit := do
  match ← next with
  | some 0x5d => skip
  | some 0x2c =>
    skip
    match ← next with
    | some 0x5d => failAhead .trailingComma
    | _ => failAhead .trailingCharacters
  | some _ => failAhead .trailingCharacters
  | none => failAhead .endInList

/-- The elements of a list up to its end, behind those in `front`, which stand last first. -/
def elements {α : Type} (element : Reader α) : Nat → List α → Reader (List α)
  | 0, _ => failHere .endInList
  | fuel + 1, front => do
    if ← moreElements front.isEmpty then
      let a ← element
      elements element fuel (a :: front)
    else return front.reverse

/-- A list. -/
def list {α : Type} (element : Reader α) : Reader (List α) := value fun b => do
  if b = 0x5b then
    skip
    closedBy (do elements element (← fuel) []) listEnd
  else otherValue "a sequence"

/-- Whether another field of an object follows.  Its opening mark is taken. -/
def moreFields (first : Bool) : Reader Bool := do
  match ← next with
  | none => failAhead .endInObject
  | some b =>
    if b = 0x7d then return false
    else if first then
      if b = 0x22 then
        skip
        return true
      else failAhead .keyNoText
    else if b = 0x2c then
      skip
      match ← next with
      | some 0x22 =>
        skip
        return true
      | some 0x7d => failAhead .trailingComma
      | some _ => failAhead .keyNoText
      | none => failAhead .endInValue
    else failAhead .noObjectEnd

/-- The end of an object. -/
def objectEnd : Reader Unit := do
  match ← next with
  | some 0x7d => skip
  | some 0x2c => failAhead .trailingComma
  | some _ => failAhead .trailingCharacters
  | none => failAhead .endInObject

/-- The colon behind a key. -/
def colon : Reader Unit := do
  match ← next with
  | some 0x3a => skip
  | some _ => failAhead .noColon
  | none => failAhead .endInObject

/-- A bracket that a passed-over value stands in. -/
inductive Bracket
  | list
  | object
deriving DecidableEq

/-- The key of a passed-over field, if the bracket is that of an object. -/
def skipKey : Bracket → Reader Unit
  | .list => pure ()
  | .object => do
    match ← next with
    | some 0x22 => skip
    | some _ => failAhead .keyNoText
    | none => failAhead .endInObject
    skipText (← fuel)
    match ← next with
    | some 0x3a => skip
    | some _ => failAhead .noColon
    | none => failAhead .endInObject

/-- What comes behind a passed-over value, or behind an opening bracket.  `comma` says whether a
comma may follow.  Closed brackets fall off; the answer are those that are open when the next value
begins, none when the outermost value is over. -/
def skipBetween (comma : Bool) : List Bracket → Reader (List Bracket)
  | [] => return []
  | bracket :: outer => do
    let afterValue : Reader (List Bracket) := do
      skipKey bracket
      return bracket :: outer
    match ← next with
    | some b =>
      if comma ∧ b = 0x2c then
        skip
        afterValue
      else if (b = 0x5d ∧ bracket = .list) ∨ (b = 0x7d ∧ bracket = .object) then
        skip
        skipBetween true outer
      else if comma then failAhead (if bracket = .list then .noListEnd else .noObjectEnd)
      else afterValue
    | none => failAhead (if bracket = .list then .endInList else .endInObject)

/-- A value that is not looked at, inside open brackets. -/
def skipValues : Nat → List Bracket → Reader Unit
  | 0, _ => failAhead .endInValue
  | fuel + 1, open_ => do
    let go (comma : Bool) (open_ : List Bracket) : Reader Unit := do
      match ← skipBetween comma open_ with
      | [] => pure ()
      | open_ => skipValues fuel open_
    match ← next with
    | none => failAhead .endInValue
    | some 0x6e => skip; word (Bytes.ofText "ull"); go true open_
    | some 0x74 => skip; word (Bytes.ofText "rue"); go true open_
    | some 0x66 => skip; word (Bytes.ofText "alse"); go true open_
    | some 0x2d => skip; skipNumber; go true open_
    | some 0x22 => skip; skipText (← Reader.fuel); go true open_
    | some 0x5b => skip; go false (.list :: open_)
    | some 0x7b => skip; go false (.object :: open_)
    | some b =>
      if isDigit b then
        skipNumber
        go true open_
      else failAhead .noValue

/-- A value that is not looked at. -/
def skipValue : Reader Unit := do skipValues (← fuel) []

/-- The fields of an object up to its end.  `field` reads what stands behind a key. -/
def fields {σ : Type} (field : String → σ → Reader σ) : Nat → Bool → σ → Reader σ
  | 0, _, _ => failHere .endInObject
  | fuel + 1, first, s => do
    if ← moreFields first then
      let key ← text
      let s ← field key s
      fields field fuel false s
    else return s

/-- A field that may be there once. -/
def once {α : Type} (name : String) (old : Option α) (read : Reader α) : Reader (Option α) := do
  if old.isSome then mismatch (.duplicate name)
  else
    colon
    return some (← read)

/-- A field that must have been there. -/
def required {α : Type} (name : String) : Option α → Reader α
  | some a => return a
  | none => mismatch (.missing name)

/-- The element with this number of a record given as a list. -/
def position {α : Type} (i : Nat) (wanted : String) (read : Reader α) : Reader α := do
  if ← moreElements (i = 0) then read else mismatch (.tooShort i wanted)

/-- A record, given as an object or as the list of its fields. -/
def record {α : Type} (wanted : String) (asObject asList : Reader α) : Reader α := value fun b => do
  if b = 0x5b then
    skip
    closedBy asList listEnd
  else if b = 0x7b then
    skip
    closedBy asObject objectEnd
  else otherValue wanted

/-- A text that is one value and nothing else. -/
def whole {α : Type} (read : Reader α) (bytes : Bytes) : Except Fault α :=
  let all : Reader α := do
    let a ← read
    match ← next with
    | some _ => failAhead .trailingCharacters
    | none => return a
  match all (.start bytes) with
  | .ok a _ => .ok a
  | .error fault _ => .error fault

end Torrent.Json.Reader
