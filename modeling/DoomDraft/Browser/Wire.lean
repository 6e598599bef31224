import DoomDraft.Document.Operation
import DoomDraft.Foundation.Decimal
import DoomDraft.Foundation.Unicode

/-!
# What the browser sends

`JSON.stringify(opToWire(op, seq, clientId))` as `fetch` sends it, in UTF-8.
Strings are quoted as ECMAScript has it: seven characters have an escape of
their own, the other control characters and lone surrogates become `\u`
followed by four hexadecimal digits.
-/

namespace DoomDraft.Browser

open Document

/-- A string of the browser. -/
abbrev JsString := List CodeUnit

/-- A lower-case hexadecimal digit. -/
def hexDigit (n : Nat) : Byte :=
  if n < 10 then Fin.ofNat 256 (48 + n) else Fin.ofNat 256 (87 + n)

/-- `UnicodeEscape`. -/
def unicodeEscape (c : CodePoint) : ByteString :=
  [byte '\\', byte 'u', hexDigit (c.val / 0x1000 % 0x10), hexDigit (c.val / 0x100 % 0x10),
    hexDigit (c.val / 0x10 % 0x10), hexDigit (c.val % 0x10)]

/-- A code point within a quoted string. -/
def quotePoint (c : CodePoint) : ByteString :=
  if c.val = 8 then ascii ['\\', 'b']
  else if c.val = 9 then ascii ['\\', 't']
  else if c.val = 10 then ascii ['\\', 'n']
  else if c.val = 12 then ascii ['\\', 'f']
  else if c.val = 13 then ascii ['\\', 'r']
  else if c.val = 34 then ascii ['\\', '"']
  else if c.val = 92 then ascii ['\\', '\\']
  else if c.val < 0x20 ∨ IsSurrogate c then unicodeEscape c
  else utf8 c

/-- `QuoteJSONString` without the quotes. -/
def quoteContent (s : JsString) : ByteString :=
  (codePoints s).flatMap quotePoint

/-- A value of a flat object. -/
inductive JsonValue where
  | string (s : JsString)
  | number (n : Nat)

/-- `JSON.stringify` of a value. -/
def JsonValue.stringify : JsonValue → ByteString
  | .string s => byte '"' :: (quoteContent s ++ [byte '"'])
  | .number n => decimal n

/-- `JSON.stringify` of a flat object. -/
def stringify (fields : List (List Char × JsonValue)) : ByteString :=
  let members := fields.map fun (key, value) =>
    byte '"' :: (ascii key ++ byte '"' :: byte ':' :: value.stringify)
  byte '{' :: ([byte ','].intercalate members ++ [byte '}'])

/-- The operation that the server stores: the numbers are those of the browser,
and the text is encoded. -/
def stored : DocOp CodeUnit → DocOp Byte
  | .insert pos text => .insert pos (toUtf8 text)
  | .delete pos len => .delete pos len

/-- `opToWire`. -/
def opToWire (op : DocOp CodeUnit) (seq : Nat) (clientId : JsString) :
    List (List Char × JsonValue) :=
  match op with
  | .insert pos text =>
      [(['t', 'y', 'p', 'e'], .string (units ['I'])), (['p', 'o', 's'], .number pos),
        (['t', 'e', 'x', 't'], .string text),
        (['c', 'l', 'i', 'e', 'n', 't', '_', 'i', 'd'], .string clientId),
        (['s', 'e', 'q'], .number seq)]
  | .delete pos len =>
      [(['t', 'y', 'p', 'e'], .string (units ['D'])), (['p', 'o', 's'], .number pos),
        (['l', 'e', 'n'], .number len),
        (['c', 'l', 'i', 'e', 'n', 't', '_', 'i', 'd'], .string clientId),
        (['s', 'e', 'q'], .number seq)]

/-- A digit of a number in base 36. -/
def IsBase36 (u : CodeUnit) : Prop :=
  48 ≤ u.val ∧ u.val ≤ 57 ∨ 97 ≤ u.val ∧ u.val ≤ 122

instance (u : CodeUnit) : Decidable (IsBase36 u) :=
  inferInstanceAs (Decidable (_ ∨ _))

/-- A string of the form that `clientId` is given. -/
def IsClientId (clientId : JsString) : Prop :=
  ∃ time random : JsString, (∀ u ∈ time, IsBase36 u) ∧ (∀ u ∈ random, IsBase36 u) ∧
    clientId = units ['c', '_'] ++ time ++ units ['_'] ++ random

end DoomDraft.Browser
