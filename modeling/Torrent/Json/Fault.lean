import Torrent.Text.Quoted

/-!
# What can be wrong with a JSON text

A text is *malformed* when it is no JSON at all, and a *mismatch* when it is JSON
of another shape than the one wanted.  A fault is shown with the line and the
column at which the reader stood.
-/

namespace Torrent.Json

/-- Why a text is no JSON. -/
inductive Malformed
  | endInList
  | endInObject
  | endInText
  | endInValue
  | noColon
  | noListEnd
  | noObjectEnd
  | noWord
  | noValue
  | badEscape
  | badNumber
  | numberTooLarge
  | controlCharacter
  | keyNoText
  | loneSurrogate
  | escapeCut
  | trailingComma
  | trailingCharacters
deriving DecidableEq

/-- The text of the reason. -/
def Malformed.message : Malformed → String
  | .endInList => "EOF while parsing a list"
  | .endInObject => "EOF while parsing an object"
  | .endInText => "EOF while parsing a string"
  | .endInValue => "EOF while parsing a value"
  | .noColon => "expected `:`"
  | .noListEnd => "expected `,` or `]`"
  | .noObjectEnd => "expected `,` or `\x7d`"
  | .noWord => "expected ident"
  | .noValue => "expected value"
  | .badEscape => "invalid escape"
  | .badNumber => "invalid number"
  | .numberTooLarge => "number out of range"
  | .controlCharacter => "control character (\\u0000-\\u001F) found while parsing a string"
  | .keyNoText => "key must be a string"
  | .loneSurrogate => "lone leading surrogate in hex escape"
  | .escapeCut => "unexpected end of hex escape"
  | .trailingComma => "trailing comma"
  | .trailingCharacters => "trailing characters"

/-- A value that stands where another one is wanted. -/
inductive Found
  | null
  | bool (value : Bool)
  | integer (value : Int)
  /-- A number with a point or an exponent, in its shortest text. -/
  | fraction (text : String)
  | text (value : String)
  | list
  | object
deriving DecidableEq

/-- The value as it is named in a message. -/
def Found.name : Found → String
  | .null => "null"
  | .bool value => "boolean `" ++ (if value then "true" else "false") ++ "`"
  | .integer value => "integer `" ++ toString value ++ "`"
  | .fraction shown => "floating point `" ++ shown ++ "`"
  | .text value => "string " ++ quoted value
  | .list => "sequence"
  | .object => "map"

/-- How JSON differs from the shape that is wanted. -/
inductive Mismatch
  | missing (field : String)
  | duplicate (field : String)
  | wrongType (found : Found) (wanted : String)
  | wrongValue (found : Found) (wanted : String)
  /-- A list of fields ends early. -/
  | tooShort (count : Nat) (wanted : String)
  /-- A value does not mean what it should, in these words. -/
  | rejected (text : String)
deriving DecidableEq

/-- The text of the difference. -/
def Mismatch.message : Mismatch → String
  | .missing field => "missing field `" ++ field ++ "`"
  | .duplicate field => "duplicate field `" ++ field ++ "`"
  | .wrongType found wanted => "invalid type: " ++ found.name ++ ", expected " ++ wanted
  | .wrongValue found wanted => "invalid value: " ++ found.name ++ ", expected " ++ wanted
  | .tooShort count wanted => "invalid length " ++ toString count ++ ", expected " ++ wanted
  | .rejected words => words

/-- Why a text cannot be read. -/
inductive Cause
  | malformed (cause : Malformed)
  | mismatch (cause : Mismatch)
deriving DecidableEq

/-- The text of the cause, without a place. -/
def Cause.message : Cause → String
  | .malformed cause => cause.message
  | .mismatch cause => cause.message

/-- A place in a text: the line, counted from one, and the bytes of it passed. -/
structure Place where
  line : Nat
  column : Nat
deriving DecidableEq

/-- A cause and, once it is known, the place where the reader stood. -/
structure Fault where
  cause : Cause
  place : Option Place
deriving DecidableEq

/-- The text of a fault with its place. -/
def Fault.message (fault : Fault) : String :=
  match fault.place with
  | none => fault.cause.message
  | some place =>
    fault.cause.message ++ " at line " ++ toString place.line ++ " column " ++ toString place.column

end Torrent.Json
