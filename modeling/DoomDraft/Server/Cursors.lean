import DoomDraft.Server.Refresh
import DoomDraft.Server.Registry
import DoomDraft.Server.RoundTrip

/-!
# Cursors in the database

A posted cursor is stored as a JSON object under a key of its client, and the
cache reads it back from there.  What is escaped on the way in is not all undone
on the way out.
-/

namespace DoomDraft.Server

open Browser Document Pancy

/-- `cursor_entry`. -/
structure CursorEntry where
  version : Int
  clientId : ByteString
  pos : Int
  deriving DecidableEq

/-- The cursors of `per_doc_cache`. -/
structure CursorCache where
  cursors : OrderedMap Nat CursorEntry
  cursorEpoch : Nat

/-- A request that is answered with status 400. -/
inductive BadCursor where
  | missingField
  | negative
  deriving DecidableEq

/-- The error that the answer names. -/
def BadCursor.error : BadCursor → String
  | .missingField => "missing field (client_id/pos)"
  | .negative => "pos must be >= 0"

theorem BadCursor.decode_body (bad : BadCursor) : Json.decode (errorBody bad.error) =
    some (.object [(ascii ['e', 'r', 'r', 'o', 'r'], .string (ascii bad.error.toList))]) := by
  apply decode_errorBody
  cases bad <;> decide +kernel

/-- `handle_post_cursor_doc` up to the submission. -/
def parsePostCursor (body : ByteString) : Except BadCursor (ByteString × Int) :=
  match jsonGetString body (ascii ['c', 'l', 'i', 'e', 'n', 't', '_', 'i', 'd']),
    jsonGetInt body (ascii ['p', 'o', 's']) with
  | some clientId, some pos => if pos < 0 then .error .negative else .ok (clientId, pos)
  | _, _ => .error .missingField

/-- `hash_client_id`. -/
def hashClientId (s : ByteString) : Nat :=
  s.foldl (fun h c => (h ^^^ c.val) * 1099511628211 % uint64Size) 1469598103934665603

/-- The keys of the cursors of a document. -/
def cursorPrefix (docId : ByteString) : ByteString :=
  ascii ['d', 'o', 'c', '/'] ++ docId ++ ascii ['/', 'c', 'u', 'r', 's', 'o', 'r', '/']

/-- `key` in `handle_post_cursor_doc`. -/
def cursorKey (docId : ByteString) (cidHash : Nat) : ByteString :=
  cursorPrefix docId ++ decimal cidHash

/-- `val` in `handle_post_cursor_doc`. -/
def cursorValue (clientId : ByteString) (pos : Int) : ByteString :=
  ascii ['\x7b', '"', 'c', 'l', 'i', 'e', 'n', 't', '_', 'i', 'd', '"', ':', '"'] ++
    jsonEscape clientId ++ ascii ['"', ',', '"', 'p', 'o', 's', '"', ':'] ++ decimalInt pos ++
    ascii ['\x7d']

/-- The put of `handle_post_cursor_doc`. -/
def cursorPut (serial : Nat) (docId clientId : ByteString) (pos : Int) : PutRequest where
  serial := serial
  key := cursorKey docId (hashClientId clientId)
  value := cursorValue clientId pos

/-- The body of the loop of `refresh_cursors_from_db`. -/
def readCursor (docId key : ByteString) (cell : Vv) : Option (Nat × CursorEntry) :=
  let start := cursorPrefix docId
  if key.length ≤ start.length ∨ key.take start.length ≠ start then none
  else (parseWhole (key.drop start.length)).bind fun cidHash =>
    (jsonGetString cell.value (ascii ['c', 'l', 'i', 'e', 'n', 't', '_', 'i', 'd'])).bind
      fun clientId => (jsonGetInt cell.value (ascii ['p', 'o', 's'])).map fun pos =>
        (cidHash, ⟨cell.version, clientId, pos⟩)

/-- A round of the loop of `refresh_cursors_from_db`. -/
def collectCursor (docId : ByteString) (fresh : OrderedMap Nat CursorEntry)
    (entry : ByteString × Vv) : OrderedMap Nat CursorEntry :=
  match readCursor docId entry.1 entry.2 with
  | some (cidHash, cursor) => fresh.insert cidHash cursor
  | none => fresh

/-- `fresh` in `refresh_cursors_from_db`. -/
def freshCursors (db : PancyDb) (docId : ByteString) : OrderedMap Nat CursorEntry :=
  db.db.entries.foldl (collectCursor docId) OrderedMap.empty

/-- `refresh_cursors_from_db`. -/
def CursorCache.refreshCursorsFromDb (self : CursorCache) (db : PancyDb) (docId : ByteString) :
    CursorCache :=
  let fresh := freshCursors db docId
  if fresh = self.cursors then self else ⟨fresh, self.cursorEpoch + 1⟩

/-- The end of `handle_post_cursor_doc`, behind the commit. -/
def CursorCache.noteCursor (self : CursorCache) (version : Int) (clientId : ByteString)
    (pos : Int) : CursorCache :=
  ⟨self.cursors.insert (hashClientId clientId) ⟨version, clientId, pos⟩, self.cursorEpoch + 1⟩

/-! ## Strings -/

/-- The reader undoes the escape of the byte. -/
def Undone (c : Byte) : Prop :=
  (0x20 ≤ c.val ∨ c = 9 ∨ c = 10) ∧ c ≠ byte '\x7b' ∧ c ≠ byte '\x7d'

instance (c : Byte) : Decidable (Undone c) :=
  inferInstanceAs (Decidable (_ ∧ _))

/-- What the reader makes of an escaped byte. -/
def receivedByte (c : Byte) : ByteString :=
  if Undone c then [c] else (escapeByte c).tail

/-- A byte is escaped by a backslash and a letter, with digits behind it, or
stands for itself. -/
theorem escapeByte_cases : ∀ c : Byte,
    (escapeByte c = [c] ∧ c ≠ backslash ∧ c ≠ quote ∧ receivedByte c = [c]) ∨
      (escapeByte c = backslash :: (escapeByte c).getD 1 0 :: (escapeByte c).drop 2 ∧
        backslash ∉ (escapeByte c).drop 2 ∧ quote ∉ (escapeByte c).drop 2 ∧
        receivedByte c = unescape ((escapeByte c).getD 1 0) :: (escapeByte c).drop 2) := by
  decide +kernel

theorem receivedByte_iff : ∀ c : Byte,
    (receivedByte c = [c] ↔ Undone c) ∧ 1 ≤ (receivedByte c).length := by
  decide +kernel

theorem readString_escapeByte (c : Byte) (rest : ByteString) :
    readString (escapeByte c ++ rest) = (readString rest).map (receivedByte c ++ ·) := by
  rcases escapeByte_cases c with
    ⟨sent, notBackslash, notQuote, got⟩ | ⟨sent, clean, quoteClean, got⟩
  · rw [sent, got]
    exact readString_cons notBackslash notQuote rest
  · rw [sent, got, List.cons_append, List.cons_append, readString_escape,
      readString_append clean quoteClean, Option.map_map]
    rfl

/-- The reader takes an escaped string for what it receives. -/
theorem readString_jsonEscape (s rest : ByteString) :
    readString (jsonEscape s ++ quote :: rest) = some (s.flatMap receivedByte) := by
  induction s with
  | nil => exact readString_quote rest
  | cons c s ih =>
      rw [jsonEscape] at ih ⊢
      rw [List.flatMap_cons, List.append_assoc, readString_escapeByte, ih]
      rfl

/-- The reader gets a string back exactly when it undoes the escape of each byte. -/
theorem flatMap_receivedByte_iff (s : ByteString) :
    s.flatMap receivedByte = s ↔ ∀ c ∈ s, Undone c := by
  have segments := @flatMap_eq_flatMap_iff Byte Byte receivedByte (fun c => [c])
    (fun c => (receivedByte_iff c).2) s
  rw [List.flatMap_singleton'] at segments
  rw [segments]
  exact forall₂_congr fun c _ => (receivedByte_iff c).1

/-- The search for a key passes over an escaped string, unless the string ends as
the key does; then it stops behind the string. -/
theorem afterFirst_jsonEscape {key : ByteString} (keyClean : quote ∉ key)
    (notBackslash : backslash ∉ key) (s rest : ByteString) :
    afterFirst (quoted key) (quote :: (jsonEscape s ++ quote :: rest)) = some rest ∨
      afterFirst (quoted key) (quote :: (jsonEscape s ++ quote :: rest)) =
        afterFirst (quoted key) (quote :: rest) := by
  -- Induction on the quotes of the string: the piece before each ends in a backslash.
  induction lengthEq : s.length using Nat.strong_induction_on generalizing s with
  | _ n ih =>
      by_cases quotes : quote ∈ s
      · obtain ⟨a, b, rfl, absent⟩ := List.eq_append_cons_of_mem quotes
        have shape : jsonEscape (a ++ quote :: b) ++ quote :: rest =
            (jsonEscape a ++ [backslash]) ++ quote :: (jsonEscape b ++ quote :: rest) := by
          have escaped : escapeByte quote = [backslash, quote] := by decide
          simp [jsonEscape, escaped]
        have pieceClean : quote ∉ jsonEscape a ++ [backslash] := by
          rw [List.mem_append, not_or, List.mem_singleton, quote_mem_jsonEscape_iff]
          exact ⟨absent, by decide⟩
        have notKey : jsonEscape a ++ [backslash] ≠ key := by
          intro same
          exact notBackslash (same ▸ List.mem_append_right _ (List.mem_singleton_self backslash))
        have shorter : b.length < n := by
          rw [← lengthEq, List.length_append, List.length_cons]
          omega
        rw [shape, afterFirst_chunk keyClean pieceClean, if_neg notKey]
        exact ih b.length shorter b rfl
      · have clean : quote ∉ jsonEscape s := by rwa [quote_mem_jsonEscape_iff]
        rw [afterFirst_chunk keyClean clean]
        split
        · exact Or.inl rfl
        · exact Or.inr rfl

/-! ## The stored value -/

/-- What is behind the client id in a stored value. -/
def posMember (n : Nat) : ByteString :=
  byte ',' :: quote :: (ascii ['p', 'o', 's'] ++ quote :: byte ':' ::
    (decimal n ++ ascii ['\x7d']))

theorem cursorValue_eq (clientId : ByteString) (n : Nat) :
    cursorValue clientId n = byte '\x7b' :: quote ::
      (ascii ['c', 'l', 'i', 'e', 'n', 't', '_', 'i', 'd'] ++ quote :: byte ':' :: quote ::
        (jsonEscape clientId ++ quote :: posMember n)) := by
  simp [cursorValue, posMember, ascii, quote, decimalInt]

theorem afterFirst_quote (b : Byte) (rest : ByteString) : afterFirst [b] (b :: rest) = some rest :=
  afterFirst_singleton List.not_mem_nil rest

/-- The client id is read as the reader receives it. -/
theorem jsonGetString_cursorValue (clientId : ByteString) (n : Nat) :
    jsonGetString (cursorValue clientId n)
      (ascii ['c', 'l', 'i', 'e', 'n', 't', '_', 'i', 'd']) =
        some (clientId.flatMap receivedByte) := by
  have clean : quote ∉ ascii ['c', 'l', 'i', 'e', 'n', 't', '_', 'i', 'd'] := by decide
  rw [jsonGetString, cursorValue_eq, afterFirst_open, afterFirst_chunk clean clean, if_pos rfl,
    Option.bind_some, afterFirst_quote, Option.bind_some, afterFirst_quote, Option.bind_some]
  exact readString_jsonEscape clientId (posMember n)

/-- The position is read back, whatever the client id. -/
theorem jsonGetInt_cursorValue (clientId : ByteString) {n : Nat} (small : n < 2 ^ 63) :
    jsonGetInt (cursorValue clientId n) (ascii ['p', 'o', 's']) = some (n : Int) := by
  have clean : quote ∉ ascii ['p', 'o', 's'] := by decide
  have idClean : quote ∉ ascii ['c', 'l', 'i', 'e', 'n', 't', '_', 'i', 'd'] := by decide
  have value : (afterFirst [byte ':'] (byte ':' :: (decimal n ++ ascii ['\x7d']))).bind readInt =
      some (n : Int) :=
    readInt_member small (noDigitFirst_ascii (by decide) [] [])
  have start : afterFirst (quoted (ascii ['p', 'o', 's'])) (cursorValue clientId n) =
      afterFirst (quoted (ascii ['p', 'o', 's']))
        (quote :: (jsonEscape clientId ++ quote :: posMember n)) := by
    have colon : quote ∉ [byte ':'] := by decide
    rw [cursorValue_eq, afterFirst_open, afterFirst_chunk clean idClean, if_neg (by decide)]
    exact (afterFirst_chunk clean colon _).trans (if_neg (by decide))
  rw [jsonGetInt, start]
  rcases afterFirst_jsonEscape clean (by decide) clientId (posMember n) with stopped | passed
  · -- The string ends as the key does, and the next colon is the right one.
    have skipped : afterFirst [byte ':'] (posMember n) =
        some (decimal n ++ ascii ['\x7d']) :=
      @afterFirst_singleton (byte ':') (byte ',' :: quote :: (ascii ['p', 'o', 's'] ++ [quote]))
        (by decide) _
    rw [stopped, Option.bind_some, skipped, ← afterFirst_quote (byte ':')]
    exact value
  · have comma : quote ∉ [byte ','] := by decide
    have found : afterFirst (quoted (ascii ['p', 'o', 's'])) (quote :: posMember n) =
        some (byte ':' :: (decimal n ++ ascii ['\x7d'])) := by
      rw [posMember]
      refine (afterFirst_chunk clean comma _).trans ?_
      rw [if_neg (by decide), afterFirst_chunk clean clean, if_pos rfl]
    rw [passed, found]
    exact value

/-! ## The refresh -/

/-- The keys of the document's cursors, as they are built for a client. -/
def BuiltCursorKeys (docId : ByteString) (reqs : List Request) : Prop :=
  ∀ req ∈ reqs, ∀ suffix, IsNumeral suffix → req.key = cursorPrefix docId ++ suffix →
    ∃ cidHash, req.key = cursorKey docId cidHash

/-- What is read under the key of a cursor. -/
theorem readCursor_cursorKey {docId : ByteString} {cidHash : Nat} (fits : cidHash < uint64Size)
    (cell : Vv) :
    readCursor docId (cursorKey docId cidHash) cell =
      (jsonGetString cell.value (ascii ['c', 'l', 'i', 'e', 'n', 't', '_', 'i', 'd'])).bind
        fun clientId => (jsonGetInt cell.value (ascii ['p', 'o', 's'])).map fun pos =>
          (cidHash, ⟨cell.version, clientId, pos⟩) := by
  have longer : ¬ ((cursorKey docId cidHash).length ≤ (cursorPrefix docId).length ∨
      (cursorKey docId cidHash).take (cursorPrefix docId).length ≠ cursorPrefix docId) := by
    have someDigit := List.length_pos_of_ne_nil (decimal_ne_nil cidHash)
    rw [cursorKey, List.take_left, List.length_append]
    simp only [ne_eq, not_true_eq_false, or_false]
    omega
  simp only [readCursor, if_neg longer]
  rw [cursorKey, List.drop_left, parseWhole_decimal fits, Option.bind_some]

/-- What is read for a client comes from a key that ends in a numeral of its hash. -/
theorem readCursor_eq_some {docId key : ByteString} {cell : Vv} {cidHash : Nat}
    {cursor : CursorEntry} (read : readCursor docId key cell = some (cidHash, cursor)) :
    ∃ suffix, IsNumeral suffix ∧ key = cursorPrefix docId ++ suffix ∧
      cidHash = decimalValue suffix := by
  simp only [readCursor] at read
  split at read
  · contradiction
  · rename_i longer
    obtain ⟨n, parsed, read⟩ := Option.bind_eq_some_iff.mp read
    obtain ⟨clientId, -, read⟩ := Option.bind_eq_some_iff.mp read
    obtain ⟨pos, -, same⟩ := Option.map_eq_some_iff.mp read
    obtain ⟨rfl, -⟩ := Prod.mk.inj same
    obtain ⟨numeral, value⟩ := parseWhole_eq_some parsed
    refine ⟨_, numeral, ?_, value⟩
    have start := not_not.mp (not_or.mp longer).2
    calc
      key = key.take (cursorPrefix docId).length ++ key.drop (cursorPrefix docId).length :=
        (List.take_append_drop _ _).symm
      _ = cursorPrefix docId ++ key.drop (cursorPrefix docId).length := by rw [start]

/-- A cursor that is the only one read for its client is collected. -/
theorem find?_foldl_collectCursor {docId : ByteString} {cidHash : Nat} {cursor : CursorEntry}
    {entries : List (ByteString × Vv)} (fresh : OrderedMap Nat CursorEntry)
    (only : ∀ entry ∈ entries, ∀ other, readCursor docId entry.1 entry.2 = some (cidHash, other) →
      other = cursor)
    (read : fresh.find? cidHash = some cursor ∨
      ∃ entry ∈ entries, readCursor docId entry.1 entry.2 = some (cidHash, cursor)) :
    (entries.foldl (collectCursor docId) fresh).find? cidHash = some cursor := by
  induction entries generalizing fresh with
  | nil => simpa using read
  | cons entry entries ih =>
      rw [List.forall_mem_cons] at only
      refine ih (collectCursor docId fresh entry) only.2 ?_
      simp only [List.mem_cons, exists_eq_or_imp] at read
      unfold collectCursor
      cases entryRead : readCursor docId entry.1 entry.2 with
      | none =>
          rw [entryRead] at read
          simpa using read
      | some result =>
          obtain ⟨otherHash, other⟩ := result
          rw [entryRead] at read
          dsimp only
          rw [OrderedMap.find?_insert]
          by_cases same : cidHash = otherHash
          · subst same
            rw [if_pos rfl, only.1 other entryRead]
            exact Or.inl rfl
          · rw [if_neg same]
            rcases read with before | here | later
            · exact Or.inl before
            · exact absurd (Prod.mk.inj (Option.some.inj here)).1.symm same
            · exact Or.inr later

/-- A refresh leaves the cursors that the database has. -/
theorem CursorCache.cursors_refreshCursorsFromDb (self : CursorCache) (db : PancyDb)
    (docId : ByteString) :
    (self.refreshCursorsFromDb db docId).cursors = freshCursors db docId := by
  unfold refreshCursorsFromDb
  dsimp only
  split
  · rename_i same
    exact same.symm
  · rfl

theorem hashClientId_lt (clientId : ByteString) : hashClientId clientId < uint64Size := by
  induction clientId using List.reverseRecOn with
  | nil => simp [hashClientId, uint64Size]
  | append_singleton clientId c ih =>
      have positive : 0 < uint64Size := Nat.two_pow_pos 64
      rw [hashClientId, List.foldl_append, List.foldl_cons, List.foldl_nil]
      exact Nat.mod_lt _ positive

/-- A refresh behind the commit of a cursor reads it as the reader receives it. -/
theorem find?_freshCursors_processPut {docId : ByteString} {reqs : List Request}
    (built : BuiltCursorKeys docId reqs) (serial : Nat) (clientId : ByteString) {n : Nat}
    (small : n < 2 ^ 63) :
    (freshCursors ((PancyDb.empty.processReqs reqs).processPut
        (cursorPut serial docId clientId n)).1 docId).find? (hashClientId clientId) =
      some ⟨(PancyDb.empty.processReqs reqs).nextVersion, clientId.flatMap receivedByte, n⟩ := by
  have versioned := PancyDb.wellVersioned_empty.processReqs reqs
  rw [cursorPut, versioned.processPut_any]
  generalize cursorEq : CursorEntry.mk (PancyDb.empty.processReqs reqs).nextVersion
    (clientId.flatMap receivedByte) n = cursor
  have read : readCursor docId (cursorKey docId (hashClientId clientId))
      ⟨cursorValue clientId n, (PancyDb.empty.processReqs reqs).nextVersion⟩ =
        some (hashClientId clientId, cursor) := by
    rw [readCursor_cursorKey (hashClientId_lt clientId), jsonGetString_cursorValue,
      Option.bind_some, jsonGetInt_cursorValue clientId small, ← cursorEq]
    rfl
  have stored := PancyDb.find?_write (PancyDb.empty.processReqs reqs)
    (cursorKey docId (hashClientId clientId)) (cursorValue clientId n)
    (cursorKey docId (hashClientId clientId))
  rw [if_pos rfl, OrderedMap.find?_eq_some_iff] at stored
  refine find?_foldl_collectCursor _ ?_ (Or.inr ⟨_, stored, read⟩)
  rintro ⟨key, cell⟩ member other otherRead
  obtain ⟨suffix, numeral, keyEq, hashEq⟩ := readCursor_eq_some otherRead
  have found := (OrderedMap.find?_eq_some_iff _ _ _).mpr member
  rw [PancyDb.find?_write] at found
  split at found
  · rename_i atKey
    obtain rfl := Option.some.inj found
    dsimp only at otherRead
    rw [atKey, read] at otherRead
    exact (Prod.mk.inj (Option.some.inj otherRead)).2.symm
  · -- A numeral of the same hash was built from it, so the keys are the same.
    rename_i differs
    obtain ⟨req, reqMem, reqKey⟩ := exists_req_of_find? found
    obtain ⟨cidHash, same⟩ := built req reqMem suffix numeral (reqKey.trans keyEq)
    have suffixEq : suffix = decimal cidHash :=
      List.append_cancel_left (keyEq.symm.trans (reqKey.symm.trans same))
    rw [suffixEq, decimalValue_decimal] at hashEq
    rw [reqKey, ← hashEq] at same
    exact absurd same differs

/-- For every client id and position, the stored value is read back as it was
exactly when each byte of the id is undone.  A refresh behind the commit of a cursor
then has the client and the position that were posted, and otherwise it has not,
whatever the cache had and whatever was committed before. -/
theorem cursor_round_trip_iff (docId clientId : ByteString) (pos : Int) (start : 0 ≤ pos)
    (fits : pos < 2 ^ 63) :
    ((jsonGetString (cursorValue clientId pos)
          (ascii ['c', 'l', 'i', 'e', 'n', 't', '_', 'i', 'd']) = some clientId ∧
        jsonGetInt (cursorValue clientId pos) (ascii ['p', 'o', 's']) = some pos) ↔
      ∀ c ∈ clientId, Undone c) ∧
    ∀ (cache : CursorCache) (reqs : List Request) (serial : Nat), BuiltCursorKeys docId reqs →
      ∃ outcome, outcome =
          (PancyDb.empty.processReqs reqs).processPut (cursorPut serial docId clientId pos) ∧
        ((∃ cursor, ((cache.noteCursor outcome.2.version clientId pos).refreshCursorsFromDb
            outcome.1 docId).cursors.find? (hashClientId clientId) = some cursor ∧
          cursor.clientId = clientId ∧ cursor.pos = pos) ↔ ∀ c ∈ clientId, Undone c) := by
  lift pos to Nat using start
  have small : pos < 2 ^ 63 := by exact_mod_cast fits
  rw [← flatMap_receivedByte_iff clientId]
  constructor
  · rw [jsonGetString_cursorValue, jsonGetInt_cursorValue clientId small, Option.some_inj]
    simp
  · intro cache reqs serial built
    refine ⟨_, rfl, ?_⟩
    rw [CursorCache.cursors_refreshCursorsFromDb,
      find?_freshCursors_processPut built serial clientId small]
    simp

/-- A cursor that moves from 1 to 3. -/
theorem cursor_round_trip_moved :
    ∃ outcome, outcome = (PancyDb.empty.processReqs
          [.put (cursorPut 0 (ascii ['a']) (ascii ['c']) 1)]).processPut
            (cursorPut 1 (ascii ['a']) (ascii ['c']) 3) ∧
      ∃ cursor, ((CursorCache.noteCursor ⟨OrderedMap.empty, 0⟩ outcome.2.version (ascii ['c'])
          3).refreshCursorsFromDb outcome.1 (ascii ['a'])).cursors.find?
            (hashClientId (ascii ['c'])) = some cursor ∧
        cursor.clientId = ascii ['c'] ∧ cursor.pos = 3 := by
  have built : BuiltCursorKeys (ascii ['a'])
      [.put (cursorPut 0 (ascii ['a']) (ascii ['c']) 1)] := by
    intro req member _ _ _
    obtain rfl := List.mem_singleton.mp member
    exact ⟨_, rfl⟩
  obtain ⟨outcome, processed, refreshed⟩ :=
    (cursor_round_trip_iff (ascii ['a']) (ascii ['c']) 3 (by decide) (by omega)).2
      ⟨OrderedMap.empty, 0⟩ _ 1 built
  exact ⟨outcome, processed, refreshed.mpr (by decide +kernel)⟩

/-- A client that is named by a brace is read back under another name. -/
theorem braceClient_renamed :
    parsePostCursor (ascii ['\x7b', '"', 'c', 'l', 'i', 'e', 'n', 't', '_', 'i', 'd', '"', ':',
        '"', '\x7b', '"', ',', '"', 'p', 'o', 's', '"', ':', '0', '\x7d']) =
          .ok (ascii ['\x7b'], 0) ∧
      jsonGetString (cursorValue (ascii ['\x7b']) 0)
        (ascii ['c', 'l', 'i', 'e', 'n', 't', '_', 'i', 'd']) =
          some (ascii ['u', '0', '0', '7', 'b']) ∧
      ¬ ∀ (clientId : ByteString) (pos : Int), 0 ≤ pos → pos < 2 ^ 63 →
        jsonGetString (cursorValue clientId pos)
          (ascii ['c', 'l', 'i', 'e', 'n', 't', '_', 'i', 'd']) = some clientId ∧
        jsonGetInt (cursorValue clientId pos) (ascii ['p', 'o', 's']) = some pos := by
  have received : jsonGetString (cursorValue (ascii ['\x7b']) 0)
      (ascii ['c', 'l', 'i', 'e', 'n', 't', '_', 'i', 'd']) =
        some (ascii ['u', '0', '0', '7', 'b']) := by
    decide +kernel
  refine ⟨by decide +kernel, received, fun always => ?_⟩
  have same := (always (ascii ['\x7b']) 0 (by decide) (by omega)).1
  rw [received] at same
  contradiction

end DoomDraft.Server
