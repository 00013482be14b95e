import Torrent.Proofs.Json.Shape

/-!
# Descriptions written and read

A description without a fault is read as it was written (`Descriptor.json_round_trip`),
whatever characters its paths have and however large its numbers are.
-/

namespace Torrent

theorem Hex.digit_lt {n : Nat} (h : n < 16) : digit n < 0x80 := by
  have hall : ∀ k : Fin 16, digit k < 0x80 := by decide
  exact hall ⟨n, h⟩

/-- The digits as text and as bytes are the same. -/
theorem Hex.ofText_encode (bytes : Bytes) : Bytes.ofText (encode bytes) = digits bytes := by
  refine Bytes.ofText_map_ofNat fun d hd => ?_
  obtain ⟨b, -, hb⟩ := List.mem_flatMap.1 hd
  have := b.toNat_lt
  simp only [List.mem_cons, List.not_mem_nil, or_false] at hb
  rcases hb with rfl | rfl
  · exact digit_lt (by omega)
  · exact digit_lt (by omega)

namespace Descriptor

open Json.Reader

theorem hashJson_eq (hash : Octets 20) : hashJson hash = textJson (Hex.encode hash.bytes) := by
  rw [textJson, Hex.ofText_encode, hashJson]

theorem takes_hashOf (hash : Octets 20) (rest : Bytes) :
    Takes (hashOf (Hex.encode hash.bytes)) [] rest hash := by
  rw [hashOf, Hex.ofText_encode, Hex.decode_digits]
  exact .pure hash rest

theorem reads_readHash (hash : Octets 20) : Reads readHash (hashJson hash) hash := by
  intro rest hrest
  rw [hashJson_eq]
  exact (reads_string _ _ rest hrest).followed (takes_hashOf hash rest)

theorem begins_textJson (text : String) : Begins (textJson text) :=
  ⟨0x22, _, rfl, rfl, by decide⟩

theorem takes_mapM_hashOf (hashes : List (Octets 20)) (rest : Bytes) :
    Takes ((hashes.map fun hash => Hex.encode hash.bytes).mapM hashOf) [] rest hashes := by
  induction hashes with
  | nil => exact .pure [] rest
  | cons hash hashes ih =>
      rw [List.map_cons, List.mapM_cons]
      exact (takes_hashOf hash _).followed (ih.followed (.pure _ rest))

theorem reads_readHashes (hashes : List (Octets 20)) :
    Reads readHashes (listJson (hashes.map hashJson)) hashes := by
  intro rest hrest
  have hwritten : hashes.map hashJson =
      (hashes.map fun hash => Hex.encode hash.bytes).map textJson := by
    rw [List.map_map]
    exact List.map_congr_left fun hash _ => hashJson_eq hash
  have hlist := reads_list (reads_string "a string") begins_textJson
    (hashes.map fun hash => Hex.encode hash.bytes)
  rw [← hwritten] at hlist
  exact (hlist rest hrest).followed (takes_mapM_hashOf hashes rest)

theorem reads_readFile (file : FileSpan) : Reads readFile (fileJson file) file := by
  refine reads_record
    (.cons ((reads_once (reads_string "path string" file.path) "path").map _)
    (.cons ((reads_once (reads_natural file.length) "length").map _) (.nil _)))
    (fun rest => ?_) _ _
  exact .pure file rest

theorem begins_fileJson (file : FileSpan) : Begins (fileJson file) :=
  ⟨0x7b, _, rfl, rfl, by decide⟩

/-- A description is read as it was written. -/
theorem reads_read (d : Descriptor) : Reads read d.toJson d := by
  refine reads_record
    (.cons ((reads_once (reads_readHash d.infoHash.octets) "info_hash").map _)
    (.cons ((reads_once (reads_natural d.totalLength) "total_length").map _)
    (.cons ((reads_once (reads_natural d.pieceLength) "piece_length").map _)
    (.cons ((reads_once (reads_readHashes d.pieceHashes) "piece_hashes").map _)
    (.cons ((reads_once (reads_list reads_readFile begins_fileJson d.files) "files").map _)
    (.nil _))))))
    (fun rest => ?_) _ _
  exact .pure d rest

theorem isText_hashJson (hash : Octets 20) : Bytes.IsText (hashJson hash) := by
  rw [hashJson_eq]
  exact Json.isText_encodeText _

theorem isText_fileJson (file : FileSpan) : Bytes.IsText (fileJson file) := by
  refine Json.isText_recordJson ?_
  simp only [List.forall_mem_cons]
  exact ⟨Json.isText_fieldJson _ (Json.isText_encodeText _),
    Json.isText_fieldJson _ (Bytes.isText_ofText _), nofun⟩

/-- What is written of a description is a text. -/
theorem isText_toJson (d : Descriptor) : Bytes.IsText d.toJson := by
  have hhashes : ∀ a ∈ d.pieceHashes.map hashJson, Bytes.IsText a := by
    intro a ha
    obtain ⟨hash, -, rfl⟩ := List.mem_map.1 ha
    exact isText_hashJson hash
  have hfiles : ∀ a ∈ d.files.map fileJson, Bytes.IsText a := by
    intro a ha
    obtain ⟨file, -, rfl⟩ := List.mem_map.1 ha
    exact isText_fileJson file
  refine Json.isText_recordJson ?_
  simp only [List.forall_mem_cons]
  exact ⟨Json.isText_fieldJson _ (isText_hashJson _),
    Json.isText_fieldJson _ (Bytes.isText_ofText _),
    Json.isText_fieldJson _ (Bytes.isText_ofText _),
    Json.isText_fieldJson _ (Json.isText_listJson hhashes),
    Json.isText_fieldJson _ (Json.isText_listJson hfiles), nofun⟩

/-- A description without a fault is read as it was written. -/
theorem ofJson_toJson {d : Descriptor} (hcheck : d.check = .ok ()) : ofJson d.toJson = .ok d := by
  simp only [ofJson]
  rw [whole_eq_ok (reads_read d)]
  dsimp only
  rw [hcheck]

/-- Every description without a fault is written as a text from which it is read.  So whatever
text a description was read from, what is written of it gives the same description and the same
text again. -/
theorem json_round_trip :
    (∀ d : Descriptor, d.check = .ok () →
      ∃ text : String, Bytes.ofText text = d.toJson ∧ ofJson (Bytes.ofText text) = .ok d) ∧
    ∀ (text : Bytes) (d : Descriptor), ofJson text = .ok d →
      ∃ d', ofJson d.toJson = .ok d' ∧ d' = d ∧ d'.toJson = d.toJson := by
  refine ⟨fun d hcheck => ?_, fun text d hread => ?_⟩
  · obtain ⟨text, htext⟩ := isText_toJson d
    refine ⟨text, htext, ?_⟩
    rw [htext]
    exact ofJson_toJson hcheck
  · exact ⟨d, ofJson_toJson (check_of_ofJson hread), rfl, rfl⟩

/-- A path with characters that are written with a backslash or in several bytes, and a length
beyond 32 bits.  The other text has blanks, its fields in another order, one that is not known, and
the file as a list. -/
theorem json_round_trip_control_character :
    let d : Descriptor := ⟨⟨.zero 20⟩, 0x1FFFFFFFE, 0xFFFFFFFF, List.replicate 2 (.zero 20),
      [⟨"a\"\\\n\x01/\u00e9😀", 0x1FFFFFFFE⟩]⟩
    let text := Bytes.ofText ("\x7b \"files\": [[\"\\u0061\", 1]], \"total_length\": 1,\n" ++
      "\"note\": [null], \"piece_length\": 1, \"piece_hashes\": [\"" ++
      Hex.encode (Bytes.zeros 20) ++ "\"], \"info_hash\": \"" ++ Hex.encode (Bytes.zeros 20) ++
      "\"\x7d")
    let read : Descriptor := ⟨⟨.zero 20⟩, 1, 1, [.zero 20], [⟨"a", 1⟩]⟩
    d.check = .ok () ∧ ofJson d.toJson = .ok d ∧
      ofJson text = .ok read ∧ ofJson read.toJson = .ok read := by
  intro d text read
  have hcheck : d.check = .ok () := by decide +kernel
  have hread : ofJson text = .ok read := by decide +kernel
  obtain ⟨hround, hagain⟩ := json_round_trip
  obtain ⟨written, hwritten, hd⟩ := hround d hcheck
  obtain ⟨d', hread', rfl, -⟩ := hagain text read hread
  exact ⟨hcheck, hwritten ▸ hd, hread, hread'⟩

end Descriptor

end Torrent
