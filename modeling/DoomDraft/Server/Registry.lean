import DoomDraft.Browser.Wire
import DoomDraft.Server.Json
import Mathlib.Data.Finset.Sort

/-!
# The registry of documents

The document ids that the server knows are stored under one key, as a JSON array
of strings.  The reader of the array takes what stands between two quotes; it
does not undo escapes, and it drops what is not a document id.
-/

namespace DoomDraft.Server

open Browser

/-- One byte in `json_escape`. -/
def escapeByte (c : Byte) : ByteString :=
  if c = quote then [backslash, quote]
  else if c = backslash then [backslash, backslash]
  else if c = 10 then [backslash, byte 'n']
  else if c = 13 then [backslash, byte 'r']
  else if c = 9 then [backslash, byte 't']
  else if c = byte '\x7b' then ascii ['\\', 'u', '0', '0', '7', 'b']
  else if c = byte '\x7d' then ascii ['\\', 'u', '0', '0', '7', 'd']
  else if c.val < 0x20 then
    ascii ['\\', 'u', '0', '0'] ++ [hexDigit (c.val / 0x10), hexDigit (c.val % 0x10)]
  else [c]

/-- `json_escape`. -/
def jsonEscape (s : ByteString) : ByteString :=
  s.flatMap escapeByte

/-- `docs_registry_json`. -/
def docsRegistryJson (docs : Finset ByteString) : ByteString :=
  let quotedDocs := (docs.sort (· ≤ ·)).map fun d => quote :: (jsonEscape d ++ [quote])
  byte '[' :: ([byte ','].intercalate quotedDocs ++ [byte ']'])

/-- `std::isalnum` in the C locale. -/
def isAlnum (c : Byte) : Bool :=
  (48 ≤ c.val ∧ c.val ≤ 57) ∨ (65 ≤ c.val ∧ c.val ≤ 90) ∨ (97 ≤ c.val ∧ c.val ≤ 122)

/-- A byte that `valid_doc_id` allows. -/
def docIdByte (c : Byte) : Bool :=
  isAlnum c || c = byte '_' || c = byte '-' || c = byte '.'

/-- `valid_doc_id`. -/
def validDocId (docId : ByteString) : Bool :=
  !docId.isEmpty && docId.all docIdByte

/-- `parse_docs_registry`. -/
def parseDocsRegistry (body : ByteString) : Finset ByteString :=
  match body with
  | [] => ∅
  | c :: rest =>
      if c = quote then
        let d := rest.takeWhile (· ≠ quote)
        let after := rest.drop (d.length + 1)
        if d.length < rest.length ∧ d ≠ [] ∧ validDocId d then insert d (parseDocsRegistry after)
        else parseDocsRegistry after
      else parseDocsRegistry rest
  termination_by body.length
  decreasing_by
    all_goals
      simp only [List.length_cons, List.length_drop]
      omega

/-! ## Escaping -/

theorem quote_mem_escapeByte_iff : ∀ c : Byte, quote ∈ escapeByte c ↔ c = quote := by
  decide +kernel

theorem all_escapeByte :
    ∀ c : Byte, escapeByte c ≠ [] ∧ (escapeByte c).all docIdByte = docIdByte c := by
  decide +kernel

theorem escapeByte_of_docIdByte :
    ∀ c : Byte, docIdByte c = true → c ≠ quote ∧ escapeByte c = [c] := by
  decide +kernel

theorem quote_mem_jsonEscape_iff (s : ByteString) : quote ∈ jsonEscape s ↔ quote ∈ s := by
  simp only [jsonEscape, List.mem_flatMap, quote_mem_escapeByte_iff, exists_eq_right]

theorem validDocId_iff (docId : ByteString) :
    validDocId docId = true ↔ docId ≠ [] ∧ ∀ c ∈ docId, docIdByte c = true := by
  simp [validDocId]

/-- Escaping neither makes a document id valid nor makes it invalid. -/
theorem validDocId_jsonEscape (docId : ByteString) :
    validDocId (jsonEscape docId) = validDocId docId := by
  cases docId with
  | nil => rfl
  | cons c docId =>
      have first := (all_escapeByte c).1
      have all : (jsonEscape (c :: docId)).all docIdByte = (c :: docId).all docIdByte := by
        simp only [jsonEscape, List.all_flatMap, fun d => (all_escapeByte d).2]
      have someByte : jsonEscape (c :: docId) ≠ [] := by
        intro empty
        rw [jsonEscape, List.flatMap_cons, List.append_eq_nil_iff] at empty
        exact first empty.1
      rw [validDocId, validDocId, all]
      simp [someByte]

/-- A valid document id has nothing to escape. -/
theorem jsonEscape_of_validDocId {docId : ByteString} (valid : validDocId docId = true) :
    jsonEscape docId = docId := by
  have bytes := ((validDocId_iff docId).mp valid).2
  clear valid
  induction docId with
  | nil => rfl
  | cons c docId ih =>
      rw [List.forall_mem_cons] at bytes
      have first := (escapeByte_of_docIdByte c bytes.1).2
      have rest := ih bytes.2
      rw [jsonEscape] at rest ⊢
      rw [List.flatMap_cons, first, rest]
      rfl

theorem quote_not_mem_of_validDocId {docId : ByteString} (valid : validDocId docId = true) :
    quote ∉ docId := by
  intro member
  exact (escapeByte_of_docIdByte quote (((validDocId_iff docId).mp valid).2 quote member)).1 rfl

/-! ## What is read back -/

theorem parseDocsRegistry_cons {c : Byte} (notQuote : c ≠ quote) (rest : ByteString) :
    parseDocsRegistry (c :: rest) = parseDocsRegistry rest := by
  rw [parseDocsRegistry, if_neg notQuote]

/-- The reader takes what stands between two quotes if it is a document id. -/
theorem mem_parseDocsRegistry_quoted {chunk : ByteString} (clean : quote ∉ chunk)
    (rest docId : ByteString) :
    docId ∈ parseDocsRegistry (quote :: (chunk ++ quote :: rest)) ↔
      (docId = chunk ∧ validDocId docId = true) ∨ docId ∈ parseDocsRegistry rest := by
  have taken : (chunk ++ quote :: rest).takeWhile (· ≠ quote) = chunk := by
    rw [List.takeWhile_append_of_pos]
    · simp
    · intro c member
      exact decide_eq_true fun same => clean (same ▸ member)
  have dropped : (chunk ++ quote :: rest).drop (chunk.length + 1) = rest := by
    rw [List.drop_append]
    simp
  have closed : chunk.length < (chunk ++ quote :: rest).length := by simp
  rw [parseDocsRegistry, if_pos rfl]
  simp only [taken, dropped, closed, true_and]
  split
  · rename_i valid
    rw [Finset.mem_insert]
    refine or_congr_left ⟨fun same => ⟨same, same ▸ valid.2⟩, And.left⟩
  · rename_i invalid
    refine ⟨Or.inr, ?_⟩
    rintro (⟨rfl, valid⟩ | member)
    · exact absurd ⟨((validDocId_iff docId).mp valid).1, valid⟩ invalid
    · exact member

/-- The ids that are read from the elements of an array. -/
theorem mem_parseDocsRegistry_array {chunks : List ByteString}
    (clean : ∀ chunk ∈ chunks, quote ∉ chunk) (docId : ByteString) :
    docId ∈ parseDocsRegistry
        ([byte ','].intercalate (chunks.map fun chunk => quote :: (chunk ++ [quote])) ++
          [byte ']']) ↔
      docId ∈ chunks ∧ validDocId docId = true := by
  have bracket : parseDocsRegistry [byte ']'] = ∅ := by
    rw [parseDocsRegistry_cons (by decide), parseDocsRegistry]
  induction chunks with
  | nil => simp [bracket]
  | cons chunk chunks ih =>
      rw [List.forall_mem_cons] at clean
      have rest := ih clean.2
      cases chunks with
      | nil =>
          have first := mem_parseDocsRegistry_quoted clean.1 [byte ']'] docId
          rw [bracket] at first
          simpa using first
      | cons next chunks =>
          rw [List.map_cons, List.map_cons, List.intercalate_cons_cons]
          rw [List.map_cons] at rest
          generalize List.intercalate [byte ','] ((quote :: (next ++ [quote])) ::
            chunks.map fun chunk => quote :: (chunk ++ [quote])) = later at rest ⊢
          have first :=
            mem_parseDocsRegistry_quoted clean.1 (byte ',' :: (later ++ [byte ']'])) docId
          have comma : byte ',' ≠ quote := by decide
          rw [parseDocsRegistry_cons comma] at first
          simp only [List.cons_append, List.append_assoc, List.nil_append] at first ⊢
          refine first.trans ((or_congr_right rest).trans ?_)
          rw [← or_and_right, ← List.mem_cons]

/-- What is read from the registry of a set of documents: its valid ids. -/
theorem mem_parseDocsRegistry_docsRegistryJson {docs : Finset ByteString}
    (clean : ∀ d ∈ docs, quote ∉ d) (docId : ByteString) :
    docId ∈ parseDocsRegistry (docsRegistryJson docs) ↔
      docId ∈ docs ∧ validDocId docId = true := by
  have cleanChunks : ∀ chunk ∈ (docs.sort (· ≤ ·)).map jsonEscape, quote ∉ chunk := by
    intro chunk member
    obtain ⟨d, dMember, rfl⟩ := List.mem_map.mp member
    rw [quote_mem_jsonEscape_iff]
    exact clean d ((Finset.mem_sort _).mp dMember)
  have array := mem_parseDocsRegistry_array cleanChunks docId
  rw [List.map_map] at array
  rw [docsRegistryJson, parseDocsRegistry_cons (by decide)]
  refine array.trans (and_congr_left fun valid => ?_)
  rw [List.mem_map]
  constructor
  · rintro ⟨d, member, rfl⟩
    rw [validDocId_jsonEscape] at valid
    rw [jsonEscape_of_validDocId valid]
    exact (Finset.mem_sort _).mp member
  · intro member
    exact ⟨docId, (Finset.mem_sort _).mpr member, jsonEscape_of_validDocId valid⟩

/-- Reading gives document ids only. -/
theorem validDocId_of_mem_parseDocsRegistry {body docId : ByteString}
    (member : docId ∈ parseDocsRegistry body) : validDocId docId = true := by
  fun_induction parseDocsRegistry body with
  | case1 => simp at member
  | case2 rest d after kept ih =>
      rcases Finset.mem_insert.mp member with rfl | later
      · exact kept.2.2
      · exact ih later
  | case3 rest d after dropped ih => exact ih member
  | case4 c rest notQuote ih => exact ih member

end DoomDraft.Server
