import Torrent.Descriptor.Basic
import Torrent.Json.Value

/-!
# Descriptions as JSON

A description is written as a record with its fields in order and its digests in
lower-case hexadecimal digits.  Reading takes the fields in any order and also
the bare list of their values, and checks the description that comes out.
-/

namespace Torrent

/-- The text for a text that is no digest. -/
def Hex.Fault.message : Hex.Fault → String
  | .oddLength => "Odd number of digits"
  | .wrongLength => "Invalid string length"
  | .badDigit byte position =>
    "Invalid character " ++ quotedAlone (Char.ofNat byte.toNat) ++ " at position " ++
      toString position

namespace Descriptor

/-! ## Writing -/

/-- A text as JSON. -/
def textJson (text : String) : Bytes := Json.encodeText (Bytes.ofText text)

/-- A number as JSON. -/
def numberJson (n : UInt64) : Bytes := Bytes.ofText (toString n.toNat)

/-- A field of a record. -/
def fieldJson (name : String) (value : Bytes) : Bytes := textJson name ++ 0x3a :: value

/-- Parts with commas between them. -/
def commaJson : List Bytes → Bytes
  | [] => []
  | [a] => a
  | a :: rest => a ++ 0x2c :: commaJson rest

/-- A record of fields. -/
def recordJson (fields : List Bytes) : Bytes := 0x7b :: commaJson fields ++ [0x7d]

/-- A list of elements. -/
def listJson (elements : List Bytes) : Bytes := 0x5b :: commaJson elements ++ [0x5d]

/-- A digest as JSON. -/
def hashJson (hash : Octets 20) : Bytes := Json.encodeText (Hex.digits hash.bytes)

/-- A file as JSON. -/
def fileJson (file : FileSpan) : Bytes :=
  recordJson [fieldJson "path" (textJson file.path), fieldJson "length" (numberJson file.length)]

/-- The description as JSON, without blanks. -/
def toJson (d : Descriptor) : Bytes :=
  recordJson
    [fieldJson "info_hash" (hashJson d.infoHash.octets),
      fieldJson "total_length" (numberJson d.totalLength),
      fieldJson "piece_length" (numberJson d.pieceLength),
      fieldJson "piece_hashes" (listJson (d.pieceHashes.map hashJson)),
      fieldJson "files" (listJson (d.files.map fileJson))]

/-! ## Reading -/

open Json (Reader Mismatch)
open Json.Reader

/-- The digest that a text spells. -/
def hashOf (text : String) : Reader (Octets 20) :=
  match Hex.decode 20 (Bytes.ofText text) with
  | .ok hash => return hash
  | .error fault => mismatch (.rejected fault.message)

/-- A digest. -/
def readHash : Reader (Octets 20) := do hashOf (← string "a string")

/-- A list of digests.  The whole list is read before the first of its texts is looked at. -/
def readHashes : Reader (List (Octets 20)) := do (← list (string "a string")).mapM hashOf

/-- The fields of a file found so far. -/
structure FileFields where
  path : Option String
  length : Option UInt64

/-- A file. -/
def readFile : Reader FileSpan :=
  let path := string "path string"
  let wanted := "struct FileSpan with 2 elements"
  let field (key : String) (found : FileFields) : Reader FileFields := do
    match key with
    | "path" => return { found with path := ← once key found.path path }
    | "length" => return { found with length := ← once key found.length natural }
    | _ =>
      colon
      skipValue
      return found
  record "struct FileSpan"
    (do
      let found ← fields field (← fuel) true ⟨none, none⟩
      let path ← required "path" found.path
      let length ← required "length" found.length
      return ⟨path, length⟩)
    (do
      let path ← position 0 wanted path
      let length ← position 1 wanted natural
      return ⟨path, length⟩)

/-- The fields of a description found so far. -/
structure Fields where
  infoHash : Option (Octets 20)
  totalLength : Option UInt64
  pieceLength : Option UInt64
  pieceHashes : Option (List (Octets 20))
  files : Option (List FileSpan)

/-- A description, not checked. -/
def read : Reader Descriptor :=
  let wanted := "struct TorrentDescriptor with 5 elements"
  let field (key : String) (found : Fields) : Reader Fields := do
    match key with
    | "info_hash" => return { found with infoHash := ← once key found.infoHash readHash }
    | "total_length" => return { found with totalLength := ← once key found.totalLength natural }
    | "piece_length" => return { found with pieceLength := ← once key found.pieceLength natural }
    | "piece_hashes" => return { found with pieceHashes := ← once key found.pieceHashes readHashes }
    | "files" => return { found with files := ← once key found.files (list readFile) }
    | _ =>
      colon
      skipValue
      return found
  record "struct TorrentDescriptor"
    (do
      let found ← fields field (← fuel) true ⟨none, none, none, none, none⟩
      let infoHash ← required "info_hash" found.infoHash
      let totalLength ← required "total_length" found.totalLength
      let pieceLength ← required "piece_length" found.pieceLength
      let pieceHashes ← required "piece_hashes" found.pieceHashes
      let files ← required "files" found.files
      return ⟨⟨infoHash⟩, totalLength, pieceLength, pieceHashes, files⟩)
    (do
      let infoHash ← position 0 wanted readHash
      let totalLength ← position 1 wanted natural
      let pieceLength ← position 2 wanted natural
      let pieceHashes ← position 3 wanted readHashes
      let files ← position 4 wanted (list readFile)
      return ⟨⟨infoHash⟩, totalLength, pieceLength, pieceHashes, files⟩)

/-- The description that a text spells, checked. -/
def ofJson (text : Bytes) : Except DescriptorFault Descriptor :=
  match whole read text with
  | .error fault => .error (.unreadable fault)
  | .ok d =>
    match d.check with
    | .error fault => .error fault
    | .ok () => .ok d

/-- Only descriptions without a fault are read. -/
theorem check_of_ofJson {text : Bytes} {d : Descriptor} (h : ofJson text = .ok d) :
    d.check = .ok () := by
  simp only [ofJson] at h
  split at h
  next => cases h
  next =>
    split at h
    next => cases h
    next hcheck =>
      cases h
      exact hcheck

end Descriptor

end Torrent
