import Torrent.Text.Printable

/-!
# Quoted text

A text inside a message stands in quotation marks, so that one can see where it
ends.  Marks, backslashes and the common control characters are written with a
backslash, and a character that cannot be shown by its number in braces.
-/

namespace Torrent

/-- The number of a character in braces. -/
def numberedChar (c : Char) : String :=
  "\\u\x7b" ++ String.ofList (Nat.toDigits 16 c.toNat) ++ "\x7d"

/-- A character as it stands between marks of this kind. -/
def quotedChar (mark c : Char) : String :=
  if c = '\x00' then "\\0"
  else if c = '\t' then "\\t"
  else if c = '\r' then "\\r"
  else if c = '\n' then "\\n"
  else if c = '\\' then "\\\\"
  else if c = mark then String.ofList ['\\', mark]
  else if isHidden c then numberedChar c
  else String.singleton c

/-- A text between quotation marks. -/
def quoted (text : String) : String :=
  "\"" ++ String.join (text.toList.map (quotedChar '"')) ++ "\""

/-- A single character between apostrophes. -/
def quotedAlone (c : Char) : String := "'" ++ quotedChar '\'' c ++ "'"

end Torrent
