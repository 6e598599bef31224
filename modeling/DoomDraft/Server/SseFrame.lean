import DoomDraft.Document.State
import DoomDraft.Foundation.EventStream
import DoomDraft.Foundation.JsonText
import DoomDraft.Server.Registry

/-!
# Frames of an event stream

A committed operation goes to the browsers as one event whose data is a JSON
object.  The server pastes the object together from literals, numerals and
escaped strings; the browser splits the stream into lines and decodes the data.
-/

namespace DoomDraft.Server

open Browser Document EventStream

/-- `op_inner` in `sse_op_frame`. -/
def opInner : DocOp Byte → ByteString
  | .insert pos text =>
      ascii ['"', 't', 'y', 'p', 'e', '"', ':', '"', 'I', '"', ',', '"', 'p', 'o', 's', '"', ':'] ++
        decimal pos ++ ascii [',', '"', 't', 'e', 'x', 't', '"', ':', '"'] ++
        jsonEscape text ++ [quote]
  | .delete pos len =>
      ascii ['"', 't', 'y', 'p', 'e', '"', ':', '"', 'D', '"', ',', '"', 'p', 'o', 's', '"', ':'] ++
        decimal pos ++ ascii [',', '"', 'l', 'e', 'n', '"', ':'] ++ decimal len

/-- `cid_json` in `sse_op_frame`. -/
def cidJson (c : CommittedOp) : ByteString :=
  if c.clientIdLabel.isEmpty then decimal c.clientId
  else [quote] ++ jsonEscape c.clientIdLabel ++ [quote]

/-- `data` in `sse_op_frame`. -/
def opData (c : CommittedOp) : ByteString :=
  ascii ['\x7b', '"', 'v', 'e', 'r', 's', 'i', 'o', 'n', '"', ':'] ++ decimalInt c.version ++
    ascii [',', '"', 'c', 'l', 'i', 'e', 'n', 't', '_', 'i', 'd', '"', ':'] ++ cidJson c ++
    ascii [',', '"', 's', 'e', 'q', '"', ':'] ++ decimal c.clientSeq ++
    ascii [',', '"', 'o', 'p', '"', ':', '\x7b'] ++ opInner c.op ++ ascii ['\x7d', '\x7d']

/-- `sse_op_frame`. -/
def sseOpFrame (c : CommittedOp) : ByteString :=
  ascii ['i', 'd', ':', ' '] ++ decimalInt c.version ++
    ascii ['\n', 'e', 'v', 'e', 'n', 't', ':', ' ', 'o', 'p', '\n', 'd', 'a', 't', 'a', ':', ' '] ++
    opData c ++ ascii ['\n', '\n']

/-! ## What a browser should read -/

/-- An operation as a JSON object. -/
def opJson : DocOp Byte → Json
  | .insert pos text => .object [(ascii ['t', 'y', 'p', 'e'], .string (ascii ['I'])),
      (ascii ['p', 'o', 's'], .int pos), (ascii ['t', 'e', 'x', 't'], .string text)]
  | .delete pos len => .object [(ascii ['t', 'y', 'p', 'e'], .string (ascii ['D'])),
      (ascii ['p', 'o', 's'], .int pos), (ascii ['l', 'e', 'n'], .int len)]

/-- The id of a client: its label, or its number where there is no label. -/
def clientIdJson (c : CommittedOp) : Json :=
  if c.clientIdLabel.isEmpty then .int c.clientId else .string c.clientIdLabel

/-- The message of a committed operation. -/
def opMessage (c : CommittedOp) : Json :=
  .object [(ascii ['v', 'e', 'r', 's', 'i', 'o', 'n'], .int c.version),
    (ascii ['c', 'l', 'i', 'e', 'n', 't', '_', 'i', 'd'], clientIdJson c),
    (ascii ['s', 'e', 'q'], .int c.clientSeq), (ascii ['o', 'p'], opJson c.op)]

/-- The member of an object with the given key; the last one counts. -/
def member (key : ByteString) : Json → Option Json
  | .object members => (members.reverse.find? fun entry => entry.1 = key).map (·.2)
  | _ => none

/-- A string. -/
def asString : Json → Option ByteString
  | .string content => some content
  | _ => none

/-- A position or a length. -/
def asNat : Json → Option Nat
  | .number (.ofNat value) 0 => some value
  | _ => none

/-- `wireToOp`, on an object whose fields have the types of an operation's. -/
def wireToOp (o : Json) : Option (DocOp Byte) :=
  let pos := (member (ascii ['p', 'o', 's']) o).bind asNat
  if (member (ascii ['t', 'y', 'p', 'e']) o).bind asString = some (ascii ['I']) then
    let text := (member (ascii ['t', 'e', 'x', 't']) o).bind asString
    pos.map fun pos => .insert pos (text.getD [])
  else
    pos.bind fun pos => ((member (ascii ['l', 'e', 'n']) o).bind asNat).map fun len =>
      .delete pos len

theorem wireToOp_opJson (op : DocOp Byte) : wireToOp (opJson op) = some op := by
  cases op with
  | insert pos text => rfl
  | delete pos len => rfl

/-! ## Escaped strings -/

theorem hexUnit_control : ∀ c : Byte, c.val < 0x20 →
    Json.hexUnit (byte '0') (byte '0') (hexDigit (c.val / 0x10)) (hexDigit (c.val % 0x10)) =
      some (Fin.ofNat 0x10000 c.val) := by
  decide +kernel

/-- An escaped byte is read as the byte, whatever is behind it. -/
theorem readContent_escapeByte (c : Byte) (rest : ByteString) :
    Json.readContent (escapeByte c ++ rest) = Json.withFront [c] (Json.readContent rest) := by
  have unicode : ∀ high low, c.val < 0x80 →
      Json.hexUnit (byte '0') (byte '0') high low = some (Fin.ofNat 0x10000 c.val) →
      Json.readContent (ascii ['\\', 'u', '0', '0'] ++ [high, low] ++ rest) =
        Json.withFront [c] (Json.readContent rest) := by
    intro high low small digits
    have unit : (Fin.ofNat 0x10000 c.val).val = c.val := Nat.mod_eq_of_lt (by omega)
    have read := Json.readContent_unicode digits (unit.symm ▸ small) rest
    rwa [unit, Fin.ofNat_val_eq_self] at read
  rw [escapeByte]
  split_ifs with isQuote isBackslash isNewline isReturn isTab isOpen isClose control
  · subst isQuote
    exact Json.readContent_short (n := quote) rfl rest
  · subst isBackslash
    exact Json.readContent_short rfl rest
  · subst isNewline
    exact Json.readContent_short (by decide) rest
  · subst isReturn
    exact Json.readContent_short (by decide) rest
  · subst isTab
    exact Json.readContent_short (by decide) rest
  · subst isOpen
    exact unicode (byte '7') (byte 'b') (by decide) (by decide)
  · subst isClose
    exact unicode (byte '7') (byte 'd') (by decide) (by decide)
  · exact unicode _ _ (by omega) (hexUnit_control c control)
  · exact Json.readContent_plain ⟨isQuote, isBackslash, by omega⟩ rest

/-- Between quotes, an escaped string is read as the string. -/
theorem encodes_jsonEscape (s : ByteString) : Json.Encodes (jsonEscape s) s := by
  induction s with
  | nil => exact Json.encodes_nil
  | cons c s ih => exact ih.append (readContent_escapeByte c)

theorem reads_quoted_jsonEscape (s : ByteString) :
    Json.Reads (quote :: (jsonEscape s ++ [quote])) (.string s) :=
  Json.reads_string (encodes_jsonEscape s)

/-! ## The data of a frame -/

theorem encodes_literal {s : ByteString} (plain : (s.all fun c => Json.Plain c) = true) :
    Json.Encodes s s :=
  Json.encodes_of_plain fun c member => of_decide_eq_true (List.all_eq_true.mp plain c member)

theorem reads_opInner (op : DocOp Byte) :
    Json.Reads (byte '\x7b' :: (opInner op ++ [byte '\x7d'])) (opJson op) := by
  have typeKey := encodes_literal (s := ascii ['t', 'y', 'p', 'e']) (by decide)
  have posKey := encodes_literal (s := ascii ['p', 'o', 's']) (by decide)
  cases op with
  | insert pos text =>
      have textKey := encodes_literal (s := ascii ['t', 'e', 'x', 't']) (by decide)
      have kind := Json.reads_string (encodes_literal (s := ascii ['I']) (by decide))
      have members := Json.ReadsMembers.cons typeKey kind
        (Json.ReadsMembers.cons posKey (Json.reads_decimal pos)
          (Json.readsMembers_single textKey (reads_quoted_jsonEscape text)))
      have object := members.object
      simpa [opInner, opJson, Json.memberText, ascii, quote] using object
  | delete pos len =>
      have lenKey := encodes_literal (s := ascii ['l', 'e', 'n']) (by decide)
      have kind := Json.reads_string (encodes_literal (s := ascii ['D']) (by decide))
      have members := Json.ReadsMembers.cons typeKey kind
        (Json.ReadsMembers.cons posKey (Json.reads_decimal pos)
          (Json.readsMembers_single lenKey (Json.reads_decimal len)))
      have object := members.object
      simpa [opInner, opJson, Json.memberText, ascii] using object

theorem reads_cidJson (c : CommittedOp) : Json.Reads (cidJson c) (clientIdJson c) := by
  rw [cidJson, clientIdJson]
  split
  · exact Json.reads_decimal c.clientId
  · exact reads_quoted_jsonEscape c.clientIdLabel

/-- A decoder reads the message from the data. -/
theorem decode_opData (c : CommittedOp) : Json.decode (opData c) = some (opMessage c) := by
  have versionKey :=
    encodes_literal (s := ascii ['v', 'e', 'r', 's', 'i', 'o', 'n']) (by decide)
  have clientKey :=
    encodes_literal (s := ascii ['c', 'l', 'i', 'e', 'n', 't', '_', 'i', 'd']) (by decide)
  have seqKey := encodes_literal (s := ascii ['s', 'e', 'q']) (by decide)
  have opKey := encodes_literal (s := ascii ['o', 'p']) (by decide)
  have members := Json.ReadsMembers.cons versionKey (Json.reads_decimalInt c.version)
    (Json.ReadsMembers.cons clientKey (reads_cidJson c)
      (Json.ReadsMembers.cons seqKey (Json.reads_decimal c.clientSeq)
        (Json.readsMembers_single opKey (reads_opInner c.op))))
  have object := members.object.decode
  simpa [opData, opMessage, Json.memberText, ascii] using object

/-! ## The lines of a frame -/

/-- No byte is a control character. -/
def Visible (s : ByteString) : Prop :=
  ∀ b ∈ s, 0x20 ≤ b.val

theorem visible_append_iff {s t : ByteString} : Visible (s ++ t) ↔ Visible s ∧ Visible t :=
  List.forall_mem_append

theorem visible_of_all {s : ByteString} (visible : (s.all fun b => 0x20 ≤ b.val) = true) :
    Visible s :=
  fun b member => of_decide_eq_true (List.all_eq_true.mp visible b member)

theorem visible_jsonEscape (s : ByteString) : Visible (jsonEscape s) := by
  have bytes : ∀ c : Byte, (escapeByte c).all (fun b => 0x20 ≤ b.val) = true := by
    decide +kernel
  intro b member
  obtain ⟨c, _, escaped⟩ := List.mem_flatMap.mp member
  exact of_decide_eq_true (List.all_eq_true.mp (bytes c) b escaped)

theorem visible_decimal (n : Nat) : Visible (decimal n) := by
  intro b member
  have digit := isDigit_of_mem_decimal member
  rw [isDigit, decide_eq_true_eq] at digit
  omega

theorem visible_decimalInt (value : Int) : Visible (decimalInt value) := by
  cases value with
  | ofNat n => exact visible_decimal n
  | negSucc n => exact List.forall_mem_cons.mpr ⟨by decide, visible_decimal (n + 1)⟩

theorem visible_opInner (op : DocOp Byte) : Visible (opInner op) := by
  cases op with
  | insert pos text =>
      simp only [opInner, visible_append_iff, visible_decimal, visible_jsonEscape, and_true]
      refine ⟨⟨?_, ?_⟩, ?_⟩ <;> exact visible_of_all (by decide)
  | delete pos len =>
      simp only [opInner, visible_append_iff, visible_decimal, and_true]
      refine ⟨?_, ?_⟩ <;> exact visible_of_all (by decide)

theorem visible_cidJson (c : CommittedOp) : Visible (cidJson c) := by
  rw [cidJson]
  split
  · exact visible_decimal c.clientId
  · simp only [visible_append_iff, visible_jsonEscape, and_true, and_self]
    exact visible_of_all (by decide)

theorem visible_opData (c : CommittedOp) : Visible (opData c) := by
  simp only [opData, visible_append_iff, visible_decimal, visible_decimalInt, visible_opInner,
    visible_cidJson, and_true]
  refine ⟨⟨⟨⟨?_, ?_⟩, ?_⟩, ?_⟩, ?_⟩ <;> exact visible_of_all (by decide)

/-- A frame is four lines, whatever is behind it. -/
theorem lines_sseOpFrame_append (c : CommittedOp) (rest : ByteString) :
    lines [] (sseOpFrame c ++ rest) =
      (ascii ['i', 'd', ':', ' '] ++ decimalInt c.version) ::
        ascii ['e', 'v', 'e', 'n', 't', ':', ' ', 'o', 'p'] ::
        (ascii ['d', 'a', 't', 'a', ':', ' '] ++ opData c) :: [] :: lines [] rest := by
  have unbroken : ∀ {text : ByteString}, Visible text → ∀ b ∈ text, b ≠ 10 ∧ b ≠ 13 := by
    intro text visible b member
    have := visible b member
    constructor <;> (rintro rfl; contradiction)
  have idLine : Visible (ascii ['i', 'd', ':', ' '] ++ decimalInt c.version) :=
    visible_append_iff.mpr ⟨visible_of_all (by decide), visible_decimalInt c.version⟩
  have eventLine : Visible (ascii ['e', 'v', 'e', 'n', 't', ':', ' ', 'o', 'p']) :=
    visible_of_all (by decide)
  have dataLine : Visible (ascii ['d', 'a', 't', 'a', ':', ' '] ++ opData c) :=
    visible_append_iff.mpr ⟨visible_of_all (by decide), visible_opData c⟩
  have blankLine : Visible [] := visible_of_all (by decide)
  have whole : sseOpFrame c ++ rest =
      (ascii ['i', 'd', ':', ' '] ++ decimalInt c.version) ++ 10 ::
        (ascii ['e', 'v', 'e', 'n', 't', ':', ' ', 'o', 'p'] ++ 10 ::
          ((ascii ['d', 'a', 't', 'a', ':', ' '] ++ opData c) ++ 10 :: ([] ++ 10 :: rest))) := by
    have newline : byte '\n' = 10 := by decide
    simp [sseOpFrame, ascii, newline]
  rw [whole, lines_append (unbroken idLine), lines_append (unbroken eventLine),
    lines_append (unbroken dataLine), lines_append (unbroken blankLine)]
  rfl

/-- The event of a committed operation. -/
def opEvent (c : CommittedOp) : Event where
  type := ascii ['o', 'p']
  data := opData c
  lastEventId := decimalInt c.version

theorem line_id (reader : Reader) (version : Int) :
    reader.line (ascii ['i', 'd', ':', ' '] ++ decimalInt version) =
      ({ reader with lastEventId := decimalInt version }, none) := by
  have noNull : (0 : Byte) ∉ decimalInt version := fun member =>
    absurd (visible_decimalInt version 0 member) (by decide)
  have read := @line_field reader (ascii ['i', 'd']) (by decide) (by decide) (decimalInt version)
  rwa [Reader.field, if_neg (by decide), if_neg (by decide), if_pos rfl, if_neg noNull] at read

theorem line_event (reader : Reader) :
    reader.line (ascii ['e', 'v', 'e', 'n', 't', ':', ' ', 'o', 'p']) =
      ({ reader with type := ascii ['o', 'p'] }, none) :=
  @line_field reader (ascii ['e', 'v', 'e', 'n', 't']) (by decide) (by decide) (ascii ['o', 'p'])

theorem line_data (reader : Reader) (data : ByteString) :
    reader.line (ascii ['d', 'a', 't', 'a', ':', ' '] ++ data) =
      ({ reader with data := reader.data ++ data ++ [10] }, none) :=
  @line_field reader (ascii ['d', 'a', 't', 'a']) (by decide) (by decide) data

/-- Between events, a frame dispatches its event and nothing else. -/
theorem events_sseOpFrame_append (lastEventId : ByteString) (c : CommittedOp)
    (rest : ByteString) :
    Reader.events ⟨[], [], lastEventId⟩ (lines [] (sseOpFrame c ++ rest)) =
      opEvent c :: Reader.events ⟨[], [], decimalInt c.version⟩ (lines [] rest) := by
  have blankLine : Reader.line ⟨ascii ['o', 'p'], opData c ++ [10], decimalInt c.version⟩ [] =
      (⟨[], [], decimalInt c.version⟩, some (opEvent c)) := by
    rw [Reader.line, if_pos rfl]
    exact dispatch_data (ascii ['o', 'p']) (opData c) (decimalInt c.version) (by decide)
  rw [lines_sseOpFrame_append, Reader.events, line_id, Reader.events, line_event, Reader.events,
    line_data, Reader.events, List.nil_append, blankLine]
  rfl

/-- A stream of frames dispatches one event for each operation. -/
theorem events_flatMap_sseOpFrame (ops : List CommittedOp) :
    events (ops.flatMap sseOpFrame) = ops.map opEvent := by
  have stream : ∀ lastEventId, Reader.events ⟨[], [], lastEventId⟩
      (lines [] (ops.flatMap sseOpFrame)) = ops.map opEvent := by
    induction ops with
    | nil => exact fun _ => rfl
    | cons c ops ih =>
        intro lastEventId
        rw [List.flatMap_cons, events_sseOpFrame_append, ih]
        rfl
  exact stream []

/-- A frame is four lines and one event, and the data of the event is the
operation. -/
theorem sseOpFrame_decodes (c : CommittedOp) :
    (∀ rest, lines [] (sseOpFrame c ++ rest) =
      [ascii ['i', 'd', ':', ' '] ++ decimalInt c.version,
        ascii ['e', 'v', 'e', 'n', 't', ':', ' ', 'o', 'p'],
        ascii ['d', 'a', 't', 'a', ':', ' '] ++ opData c, []] ++ lines [] rest) ∧
      events (sseOpFrame c) = [opEvent c] ∧ (opEvent c).type = ascii ['o', 'p'] ∧
      (opEvent c).lastEventId = decimalInt c.version ∧
      Json.decode (opEvent c).data = some (opMessage c) ∧
      wireToOp (opJson c.op) = some c.op := by
  have alone := events_flatMap_sseOpFrame [c]
  rw [List.flatMap_cons, List.flatMap_nil, List.append_nil] at alone
  exact ⟨lines_sseOpFrame_append c, alone, rfl, rfl, decode_opData c, wireToOp_opJson c.op⟩

end DoomDraft.Server
