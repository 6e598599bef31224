import DoomDraft.Server.PostOp
import DoomDraft.Server.Quoting

/-!
# The round trip of a POST

The server decodes the body of a POST to the operation that the browser sent,
unless the text of an insertion holds characters that the reader does not undo
or ends as the key `seq` does.
-/

namespace DoomDraft.Server

open Browser Document

/-! ## The pieces of a body -/

/-- The pieces up to the number `pos`. -/
def leading (type : Char) (pos : Nat) : List ByteString :=
  [ascii ['t', 'y', 'p', 'e'], ascii [':'], ascii [type], ascii [','], ascii ['p', 'o', 's'],
    byte ':' :: (decimal pos ++ ascii [','])]

/-- The pieces from the key `client_id` on. -/
def trailing (clientId : JsString) : List ByteString :=
  [ascii ['c', 'l', 'i', 'e', 'n', 't', '_', 'i', 'd'], ascii [':'], quoteContent clientId,
    ascii [','], ascii ['s', 'e', 'q']]

/-- The body of an insertion. -/
theorem stringify_insert (pos : Nat) (text : JsString) (seq : Nat) (clientId : JsString) :
    stringify (opToWire (.insert pos text) seq clientId) =
      byte '{' :: quote :: cut (leading 'I' pos) (cut [ascii ['t', 'e', 'x', 't'], ascii [':']]
        (quoteContent text ++ quote :: cut (ascii [','] :: trailing clientId)
          (byte ':' :: (decimal seq ++ ascii ['}'])))) := by
  have type : quoteContent (units ['I']) = [byte 'I'] := by decide
  simp [stringify, opToWire, JsonValue.stringify, leading, trailing, cut, ascii, quote, type]

/-- The body of a deletion. -/
theorem stringify_delete (pos len seq : Nat) (clientId : JsString) :
    stringify (opToWire (.delete pos len) seq clientId) =
      byte '{' :: quote :: cut (leading 'D' pos) (cut
        [ascii ['l', 'e', 'n'], byte ':' :: (decimal len ++ ascii [','])] (cut (trailing clientId)
          (byte ':' :: (decimal seq ++ ascii ['}'])))) := by
  have type : quoteContent (units ['D']) = [byte 'D'] := by decide
  simp [stringify, opToWire, JsonValue.stringify, leading, trailing, cut, ascii, quote, type]

theorem notMem_decimal {b : Byte} (other : isDigit b = false) (n : Nat) : b ∉ decimal n := by
  intro member
  have digit := isDigit_of_mem_decimal member
  rw [other] at digit
  contradiction

/-- A number between a colon and a comma. -/
theorem number_clean (n : Nat) : quote ∉ byte ':' :: (decimal n ++ ascii [',']) := by
  rw [List.mem_cons, List.mem_append, not_or, not_or]
  exact ⟨by decide, notMem_decimal (by decide) n, by decide⟩

theorem leading_clean {type : Char} (clean : byte type ≠ quote) (pos : Nat) :
    ∀ chunk ∈ leading type pos, quote ∉ chunk := by
  have typeClean : quote ∉ ascii [type] := fun member => clean (List.mem_singleton.mp member).symm
  simp only [leading, List.forall_mem_cons, List.not_mem_nil, false_implies, implies_true, and_true]
  exact ⟨by decide, by decide, typeClean, by decide, by decide, number_clean pos⟩

theorem afterFirst_open (key rest : ByteString) :
    afterFirst (quoted key) (byte '{' :: rest) = afterFirst (quoted key) rest := by
  have clean : quote ∉ [byte '{'] := by decide
  exact afterFirst_skip key clean rest

/-- The search for another key passes over the first two members of a body. -/
theorem afterFirst_leading {type : Char} (clean : byte type ≠ quote) (pos : Nat)
    {key : ByteString} (keyClean : quote ∉ key) (notColon : byte ':' ∉ key)
    (absent : key ∉ [ascii ['t', 'y', 'p', 'e'], ascii [type], ascii [','], ascii ['p', 'o', 's']])
    (rest : ByteString) :
    afterFirst (quoted key) (byte '{' :: quote :: cut (leading type pos) rest) =
      afterFirst (quoted key) (quote :: rest) := by
  have notMember : key ∉ leading type pos := by
    simp only [List.mem_cons, List.not_mem_nil, or_false, not_or] at absent
    simp only [leading, List.mem_cons, List.not_mem_nil, or_false, not_or]
    refine ⟨absent.1, ?_, absent.2.1, absent.2.2.1, absent.2.2.2, ?_⟩
    · rintro rfl
      exact notColon List.mem_cons_self
    · rintro rfl
      exact notColon List.mem_cons_self
  rw [afterFirst_open, afterFirst_cut keyClean (leading_clean clean pos) notMember]

/-! ## The values of the members -/

/-- A string value behind its colon. -/
theorem readString_member {chunk : ByteString} (absent : byte ':' ∉ chunk) (cs : List CodePoint)
    (rest : ByteString) :
    (afterFirst [byte ':'] (chunk ++ byte ':' :: quote ::
      (cs.flatMap quotePoint ++ quote :: rest))).bind (fun rest =>
        (afterFirst [quote] rest).bind readString) = some (cs.flatMap received) := by
  have opened : afterFirst [quote] (quote :: (cs.flatMap quotePoint ++ quote :: rest)) =
      some (cs.flatMap quotePoint ++ quote :: rest) :=
    afterFirst_singleton List.not_mem_nil _
  rw [afterFirst_singleton absent, Option.bind_some, opened, Option.bind_some]
  exact readString_flatMap cs rest

/-- A number behind its colon. -/
theorem readInt_member {n : Nat} (small : n < 2 ^ 63) {rest : ByteString}
    (stops : NoDigitFirst rest) :
    (afterFirst [byte ':'] (byte ':' :: (decimal n ++ rest))).bind readInt = some (n : Int) := by
  have opened : afterFirst [byte ':'] (byte ':' :: (decimal n ++ rest)) =
      some (decimal n ++ rest) :=
    afterFirst_singleton List.not_mem_nil _
  rw [opened, Option.bind_some]
  exact readInt_decimal small stops

theorem noDigitFirst_ascii {char : Char} (other : isDigit (byte char) = false)
    (chars : List Char) (rest : ByteString) : NoDigitFirst (ascii (char :: chars) ++ rest) := by
  intro b first
  obtain rfl := Option.some.inj first
  exact other

theorem jsonGetString_type {type : Char} (notQuote : byte type ≠ quote)
    (notBackslash : byte type ≠ backslash) (pos : Nat) (rest : ByteString) :
    jsonGetString (byte '{' :: quote :: cut (leading type pos) rest)
      (ascii ['t', 'y', 'p', 'e']) = some (ascii [type]) := by
  have found : afterFirst (quoted (ascii ['t', 'y', 'p', 'e']))
      (byte '{' :: quote :: cut (leading type pos) rest) =
        some (cut (leading type pos).tail rest) := by
    rw [afterFirst_open]
    exact @afterFirst_cut_key _ (by decide) [] (by simp) (by simp) (leading type pos).tail rest
  have colon : afterFirst [byte ':'] (cut (leading type pos).tail rest) =
      some (quote :: (ascii [type] ++ quote :: cut ((leading type pos).drop 3) rest)) :=
    afterFirst_singleton List.not_mem_nil _
  have opened : afterFirst [quote]
      (quote :: (ascii [type] ++ quote :: cut ((leading type pos).drop 3) rest)) =
        some (ascii [type] ++ quote :: cut ((leading type pos).drop 3) rest) :=
    afterFirst_singleton List.not_mem_nil _
  have noBackslash : backslash ∉ ascii [type] :=
    fun member => notBackslash (List.mem_singleton.mp member).symm
  have noQuote : quote ∉ ascii [type] := fun member => notQuote (List.mem_singleton.mp member).symm
  rw [jsonGetString, found, Option.bind_some, colon, Option.bind_some, opened, Option.bind_some,
    readString_append noBackslash noQuote, readString_quote]
  rfl

theorem jsonGetInt_pos {type : Char} (notQuote : byte type ≠ quote) {pos : Nat}
    (small : pos < 2 ^ 63) (rest : ByteString) :
    jsonGetInt (byte '{' :: quote :: cut (leading type pos) rest) (ascii ['p', 'o', 's']) =
      some (pos : Int) := by
  have clean : ∀ chunk ∈ (leading type pos).take 4, quote ∉ chunk :=
    fun chunk member => leading_clean notQuote pos chunk (List.mem_of_mem_take member)
  have absent : ascii ['p', 'o', 's'] ∉ (leading type pos).take 4 := by
    have different : ascii ['p', 'o', 's'] ≠ ascii [type] := by simp [ascii]
    simp only [leading, List.take_succ_cons, List.take_zero, List.mem_cons, List.not_mem_nil,
      or_false, not_or]
    exact ⟨by decide, by decide, different, by decide⟩
  have found : afterFirst (quoted (ascii ['p', 'o', 's']))
      (byte '{' :: quote :: cut (leading type pos) rest) =
        some (byte ':' :: (decimal pos ++ (ascii [','] ++ quote :: rest))) := by
    rw [afterFirst_open]
    refine (afterFirst_cut_key (by decide) clean absent [_] rest).trans ?_
    simp [cut]
  rw [jsonGetInt, found, Option.bind_some]
  exact readInt_member small (noDigitFirst_ascii (by decide) [] _)

/-! ## The client id and the sequence number -/

theorem lt_of_isClientId {clientId : JsString} (isId : IsClientId clientId) :
    ∀ u ∈ clientId, 48 ≤ u.val ∧ u.val ≤ 122 ∧ u.val ≠ 92 := by
  obtain ⟨time, random, timeDigits, randomDigits, rfl⟩ := isId
  have digit : ∀ u : CodeUnit, IsBase36 u → 48 ≤ u.val ∧ u.val ≤ 122 ∧ u.val ≠ 92 := by
    intro u base
    simp only [IsBase36] at base
    omega
  intro u member
  simp only [List.mem_append, or_assoc] at member
  rcases member with inLiteral | inTime | inSeparator | inRandom
  · rcases List.mem_pair.mp inLiteral with rfl | rfl
    · decide
    · decide
  · exact digit u (timeDigits u inTime)
  · rw [List.mem_singleton.mp inSeparator]
    decide
  · exact digit u (randomDigits u inRandom)

theorem mem_codePoints_clientId {clientId : JsString} (isId : IsClientId clientId) {c : CodePoint}
    (member : c ∈ codePoints clientId) : 48 ≤ c.val ∧ c.val ≤ 122 ∧ c.val ≠ 92 := by
  have bounds := lt_of_isClientId isId
  rw [codePoints_of_lt fun u inside => by have := bounds u inside; omega] at member
  obtain ⟨u, inside, rfl⟩ := List.mem_map.mp member
  exact bounds u inside

theorem flatMap_received_clientId {clientId : JsString} (isId : IsClientId clientId) :
    (codePoints clientId).flatMap received = toUtf8 clientId := by
  apply (flatMap_received_eq_iff clientId).mpr
  intro c member
  have bounds := mem_codePoints_clientId isId member
  simp only [Survives, IsSurrogate]
  omega

theorem quoteContent_clientId_clean {clientId : JsString} (isId : IsClientId clientId) :
    quote ∉ quoteContent clientId := by
  apply flatMap_quotePoint_clean
  intro member
  exact absurd (mem_codePoints_clientId isId member) (by decide)

theorem quoteContent_clientId_ne_seq {clientId : JsString} (isId : IsClientId clientId) :
    quoteContent clientId ≠ ascii ['s', 'e', 'q'] := by
  intro same
  have points := (flatMap_quotePoint_eq_iff (by decide) (codePoints clientId)).mp same
  have bounds := lt_of_isClientId isId
  rw [codePoints_of_lt fun u inside => by have := bounds u inside; omega] at points
  obtain ⟨time, random, -, -, rfl⟩ := isId
  have first := (List.cons.inj points).1
  exact absurd (congrArg Fin.val first) (by decide)

theorem afterFirst_clientId (clientId : JsString) (rest : ByteString) :
    afterFirst (quoted (ascii ['c', 'l', 'i', 'e', 'n', 't', '_', 'i', 'd']))
      (quote :: cut (trailing clientId) rest) = some (cut (trailing clientId).tail rest) :=
  @afterFirst_cut_key _ (by decide) [] (by simp) (by simp) (trailing clientId).tail rest

theorem afterFirst_seq {clientId : JsString} (isId : IsClientId clientId) (rest : ByteString) :
    afterFirst (quoted (ascii ['s', 'e', 'q'])) (quote :: cut (trailing clientId) rest) =
      some rest := by
  have clean : ∀ chunk ∈ (trailing clientId).take 4, quote ∉ chunk := by
    simp only [trailing, List.take_succ_cons, List.take_zero, List.forall_mem_cons,
      List.not_mem_nil, false_implies, implies_true, and_true]
    exact ⟨by decide, by decide, quoteContent_clientId_clean isId, by decide⟩
  have absent : ascii ['s', 'e', 'q'] ∉ (trailing clientId).take 4 := by
    simp only [trailing, List.take_succ_cons, List.take_zero, List.mem_cons, List.not_mem_nil,
      or_false, not_or]
    exact ⟨by decide, by decide, (quoteContent_clientId_ne_seq isId).symm, by decide⟩
  exact afterFirst_cut_key (by decide) clean absent [] rest

/-- The client id, looked for before its key or behind it. -/
theorem readString_clientId {clientId : JsString} (isId : IsClientId clientId)
    {chunk : ByteString} (absent : byte ':' ∉ chunk) (rest : ByteString) :
    (afterFirst [byte ':'] (chunk ++ cut (trailing clientId).tail rest)).bind (fun rest =>
      (afterFirst [quote] rest).bind readString) = some (toUtf8 clientId) := by
  rw [← flatMap_received_clientId isId]
  exact readString_member absent (codePoints clientId) _

theorem readInt_seq {seq : Nat} (small : seq < 2 ^ 63) :
    (afterFirst [byte ':'] (byte ':' :: (decimal seq ++ ascii ['}']))).bind readInt =
      some (seq : Int) :=
  readInt_member small (noDigitFirst_ascii (by decide) [] [])

/-! ## Deletions -/

theorem afterFirst_delete (pos len seq : Nat) (clientId : JsString) {key : ByteString}
    (keyClean : quote ∉ key) (notColon : byte ':' ∉ key)
    (absent : key ∉ [ascii ['t', 'y', 'p', 'e'], ascii ['D'], ascii [','], ascii ['p', 'o', 's']])
    (notLen : key ≠ ascii ['l', 'e', 'n']) :
    afterFirst (quoted key) (stringify (opToWire (.delete pos len) seq clientId)) =
      afterFirst (quoted key) (quote :: cut (trailing clientId)
        (byte ':' :: (decimal seq ++ ascii ['}']))) := by
  rw [stringify_delete, afterFirst_leading (by decide) pos keyClean notColon absent]
  apply afterFirst_cut keyClean
  · simp only [List.forall_mem_cons, List.not_mem_nil, false_implies, implies_true, and_true]
    exact ⟨by decide, number_clean len⟩
  · simp only [List.mem_cons, List.not_mem_nil, or_false, not_or]
    refine ⟨notLen, ?_⟩
    rintro rfl
    exact notColon List.mem_cons_self

theorem jsonGetInt_len {len : Nat} (small : len < 2 ^ 63) (pos seq : Nat) (clientId : JsString) :
    jsonGetInt (stringify (opToWire (.delete pos len) seq clientId)) (ascii ['l', 'e', 'n']) =
      some (len : Int) := by
  have found : afterFirst (quoted (ascii ['l', 'e', 'n']))
      (stringify (opToWire (.delete pos len) seq clientId)) =
        some (byte ':' :: (decimal len ++ (ascii [','] ++ quote :: cut (trailing clientId)
          (byte ':' :: (decimal seq ++ ascii ['}']))))) := by
    rw [stringify_delete, afterFirst_leading (by decide) pos (by decide) (by decide) (by decide)]
    refine (@afterFirst_cut_key _ (by decide) [] (by simp) (by simp) [_] _).trans ?_
    simp [cut]
  rw [jsonGetInt, found, Option.bind_some]
  exact readInt_member small (noDigitFirst_ascii (by decide) [] _)

theorem jsonGetString_clientId_delete (pos len seq : Nat) {clientId : JsString}
    (isId : IsClientId clientId) :
    jsonGetString (stringify (opToWire (.delete pos len) seq clientId))
      (ascii ['c', 'l', 'i', 'e', 'n', 't', '_', 'i', 'd']) = some (toUtf8 clientId) := by
  rw [jsonGetString, afterFirst_delete pos len seq clientId (by decide) (by decide) (by decide)
    (by decide), afterFirst_clientId, Option.bind_some]
  exact readString_clientId isId List.not_mem_nil _

theorem jsonGetInt_seq_delete (pos len : Nat) {seq : Nat} (small : seq < 2 ^ 63)
    {clientId : JsString} (isId : IsClientId clientId) :
    jsonGetInt (stringify (opToWire (.delete pos len) seq clientId)) (ascii ['s', 'e', 'q']) =
      some (seq : Int) := by
  rw [jsonGetInt, afterFirst_delete pos len seq clientId (by decide) (by decide) (by decide)
    (by decide), afterFirst_seq isId, Option.bind_some]
  exact readInt_seq small

/-- A deletion is decoded to itself. -/
theorem parsePostOp_delete {pos len seq : Nat} {clientId : JsString} (isId : IsClientId clientId)
    (posSmall : pos < 2 ^ 63) (lenSmall : len < 2 ^ 63) (seqSmall : seq < 2 ^ 63) :
    parsePostOp (stringify (opToWire (.delete pos len) seq clientId)) =
      .ok ⟨.delete pos len, toUtf8 clientId, seq⟩ := by
  have type : jsonGetString (stringify (opToWire (.delete pos len) seq clientId))
      (ascii ['t', 'y', 'p', 'e']) = some (ascii ['D']) := by
    rw [stringify_delete]
    exact jsonGetString_type (by decide) (by decide) pos _
  have position : jsonGetInt (stringify (opToWire (.delete pos len) seq clientId))
      (ascii ['p', 'o', 's']) = some (pos : Int) := by
    rw [stringify_delete]
    exact jsonGetInt_pos (by decide) posSmall _
  exact parsePostOp_eq_ok_iff.mpr (.delete pos len seq (toUtf8 clientId) type position
    (jsonGetInt_len lenSmall pos seq clientId) (jsonGetString_clientId_delete pos len seq isId)
    (jsonGetInt_seq_delete pos len seqSmall isId))

/-! ## Insertions -/

theorem afterFirst_insert (pos : Nat) (text : JsString) (seq : Nat) (clientId : JsString)
    {word : List Char} (plain : IsKey word)
    (absent : ascii word ∉
      [ascii ['t', 'y', 'p', 'e'], ascii ['I'], ascii [','], ascii ['p', 'o', 's']])
    (notColon : byte ':' ∉ ascii word) (notText : ascii word ∉ [ascii ['t', 'e', 'x', 't']]) :
    afterFirst (quoted (ascii word)) (stringify (opToWire (.insert pos text) seq clientId)) =
      if EndsAsKey word (codePoints text) then
        some (cut (ascii [','] :: trailing clientId) (byte ':' :: (decimal seq ++ ascii ['}'])))
      else
        afterFirst (quoted (ascii word)) (quote :: cut (trailing clientId)
          (byte ':' :: (decimal seq ++ ascii ['}']))) := by
  have keyClean := (ascii_clean plain).2
  have notColonKey : ascii [':'] ≠ ascii word := by
    intro same
    exact notColon (same ▸ List.mem_cons_self)
  have notComma : ascii [','] ≠ ascii word := by
    rintro same
    simp [same] at absent
  have member : ascii word ∉ [ascii ['t', 'e', 'x', 't'], ascii [':']] := by
    simp only [List.mem_cons, List.not_mem_nil, or_false, not_or] at notText ⊢
    exact ⟨notText, notColonKey.symm⟩
  rw [stringify_insert, afterFirst_leading (by decide) pos keyClean notColon absent,
    afterFirst_cut keyClean (by decide) member]
  refine (afterFirst_string plain (codePoints text) _).trans ?_
  rw [cut, afterFirst_chunk keyClean (by decide), if_neg notComma]

theorem jsonGetString_text (pos : Nat) (text : JsString) (seq : Nat) (clientId : JsString) :
    jsonGetString (stringify (opToWire (.insert pos text) seq clientId))
      (ascii ['t', 'e', 'x', 't']) = some ((codePoints text).flatMap received) := by
  rw [jsonGetString, stringify_insert, afterFirst_leading (by decide) pos (by decide) (by decide)
    (by decide)]
  have found := @afterFirst_cut_key (ascii ['t', 'e', 'x', 't']) (by decide) [] (by simp) (by simp)
    [ascii [':']] (quoteContent text ++ quote :: cut (ascii [','] :: trailing clientId)
      (byte ':' :: (decimal seq ++ ascii ['}'])))
  rw [List.nil_append] at found
  rw [found, Option.bind_some]
  exact readString_member List.not_mem_nil (codePoints text) _

/-- Behind a key that is found at the end of the text, the next colon is that
of the client id. -/
theorem colon_notMem_clientId : byte ':' ∉ ascii [','] ++ quote ::
    (ascii ['c', 'l', 'i', 'e', 'n', 't', '_', 'i', 'd'] ++ [quote]) := by
  decide

/-- A text that ends as the key `client_id` does is harmless. -/
theorem jsonGetString_clientId_insert (pos : Nat) (text : JsString) (seq : Nat)
    {clientId : JsString} (isId : IsClientId clientId) :
    jsonGetString (stringify (opToWire (.insert pos text) seq clientId))
      (ascii ['c', 'l', 'i', 'e', 'n', 't', '_', 'i', 'd']) = some (toUtf8 clientId) := by
  rw [jsonGetString, afterFirst_insert pos text seq clientId (by decide) (by decide) (by decide)
    (by decide)]
  split
  · rw [Option.bind_some]
    exact readString_clientId isId colon_notMem_clientId _
  · rw [afterFirst_clientId, Option.bind_some]
    exact readString_clientId isId List.not_mem_nil _

/-- A text that ends as the key `seq` does hides the sequence number. -/
theorem jsonGetInt_seq_insert (pos : Nat) (text : JsString) {seq : Nat} (small : seq < 2 ^ 63)
    {clientId : JsString} (isId : IsClientId clientId) :
    jsonGetInt (stringify (opToWire (.insert pos text) seq clientId)) (ascii ['s', 'e', 'q']) =
      if EndsAsKey ['s', 'e', 'q'] (codePoints text) then none else some (seq : Int) := by
  rw [jsonGetInt, afterFirst_insert pos text seq clientId (by decide) (by decide) (by decide)
    (by decide)]
  split
  · have found := afterFirst_singleton colon_notMem_clientId (quote :: (quoteContent clientId ++
      quote :: cut [ascii [','], ascii ['s', 'e', 'q']]
        (byte ':' :: (decimal seq ++ ascii ['}']))))
    rw [Option.bind_some]
    -- What follows the colon is a quote and no number.
    exact congrArg (Option.bind · readInt) found
  · rw [afterFirst_seq isId, Option.bind_some]
    exact readInt_seq small

/-- An insertion is decoded to what the reader makes of its text; it is refused
when the text ends as the key `seq` does. -/
theorem parsePostOp_insert {pos : Nat} (text : JsString) {seq : Nat} {clientId : JsString}
    (isId : IsClientId clientId) (posSmall : pos < 2 ^ 63) (seqSmall : seq < 2 ^ 63) :
    parsePostOp (stringify (opToWire (.insert pos text) seq clientId)) =
      if EndsAsKey ['s', 'e', 'q'] (codePoints text) then .error .missingField
      else .ok ⟨.insert pos ((codePoints text).flatMap received), toUtf8 clientId, seq⟩ := by
  have type : jsonGetString (stringify (opToWire (.insert pos text) seq clientId))
      (ascii ['t', 'y', 'p', 'e']) = some (ascii ['I']) := by
    rw [stringify_insert]
    exact jsonGetString_type (by decide) (by decide) pos _
  have position : jsonGetInt (stringify (opToWire (.insert pos text) seq clientId))
      (ascii ['p', 'o', 's']) = some (pos : Int) := by
    rw [stringify_insert]
    exact jsonGetInt_pos (by decide) posSmall _
  have client := jsonGetString_clientId_insert pos text seq isId
  have number := jsonGetInt_seq_insert pos text seqSmall isId
  by_cases ends : EndsAsKey ['s', 'e', 'q'] (codePoints text)
  · simp [parsePostOp, type, position, client, number, ends]
  · rw [if_neg ends] at number ⊢
    exact parsePostOp_eq_ok_iff.mpr (.insert pos seq _ (toUtf8 clientId) type position
      (jsonGetString_text pos text seq clientId) client number)

/-! ## The round trip -/

/-- The position and the length are numbers that the browser represents
exactly. -/
def IsSafe : DocOp CodeUnit → Prop
  | .insert pos _ => pos < 2 ^ 53
  | .delete pos len => pos < 2 ^ 53 ∧ len < 2 ^ 53

/-- The text of an insertion has no control character but newline and tab and
no lone surrogate, and neither is `seq` nor ends in `"seq`. -/
def SurvivesWire : DocOp CodeUnit → Prop
  | .insert _ text => (∀ c ∈ codePoints text, Survives c) ∧
      ¬ EndsAsKey ['s', 'e', 'q'] (codePoints text)
  | .delete _ _ => True

instance (op : DocOp CodeUnit) : Decidable (SurvivesWire op) :=
  match op with
  | .insert _ text =>
      have := List.decidableBAll Survives (codePoints text)
      inferInstanceAs (Decidable (_ ∧ _))
  | .delete _ _ => isTrue trivial

/-- The body of a POST is decoded to what was sent exactly when the text of an
insertion survives. -/
theorem parsePostOp_stringify_iff (op : DocOp CodeUnit) (safe : IsSafe op) {seq : Nat}
    (seqSafe : seq < 2 ^ 53) {clientId : JsString} (isId : IsClientId clientId) :
    parsePostOp (stringify (opToWire op seq clientId)) =
        .ok ⟨stored op, toUtf8 clientId, seq⟩ ↔ SurvivesWire op := by
  have range : 2 ^ 53 ≤ 2 ^ 63 := by decide
  cases op with
  | insert pos text =>
      rw [parsePostOp_insert text isId (lt_of_lt_of_le safe range) (seqSafe.trans_le range),
        SurvivesWire, ← flatMap_received_eq_iff]
      split
      · rename_i ends
        simp [ends]
      · rename_i ends
        simp [ends, stored]
  | delete pos len =>
      rw [parsePostOp_delete isId (safe.1.trans_le range) (safe.2.trans_le range)
        (seqSafe.trans_le range)]
      exact iff_of_true rfl trivial

/-- A client id. -/
def sampleId : JsString :=
  units ['c', '_'] ++ units ['m', 'b', '2'] ++ units ['_'] ++ units ['x', '9']

theorem isClientId_sampleId : IsClientId sampleId :=
  ⟨units ['m', 'b', '2'], units ['x', '9'], by simp [units, IsBase36], by simp [units, IsBase36],
    rfl⟩

/-- A quoted word and a newline, as they are typed. -/
def quotedWord : DocOp CodeUnit :=
  .insert 4 (units ['"', 'h', 'i', '"', '\n'])

theorem parsePostOp_stringify_quotedWord :
    parsePostOp (stringify (opToWire quotedWord 7 sampleId)) =
      .ok ⟨stored quotedWord, toUtf8 sampleId, 7⟩ :=
  (parsePostOp_stringify_iff quotedWord (by decide : 4 < 2 ^ 53) (by decide)
    isClientId_sampleId).mpr (by decide)

/-- The insertion of the word `seq` is refused. -/
theorem insert_seq_refused : ¬ ∀ (op : DocOp CodeUnit) (seq : Nat) (clientId : JsString),
    IsSafe op → seq < 2 ^ 53 → IsClientId clientId →
      parsePostOp (stringify (opToWire op seq clientId)) =
        .ok ⟨stored op, toUtf8 clientId, seq⟩ := by
  intro roundTrip
  have sent := roundTrip (.insert 0 (units ['s', 'e', 'q'])) 0 sampleId (by decide : 0 < 2 ^ 53)
    (by decide) isClientId_sampleId
  rw [parsePostOp_insert _ isClientId_sampleId (by decide) (by decide), if_pos (by decide)] at sent
  contradiction

end DoomDraft.Server
