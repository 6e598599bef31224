import DoomDraft.Document.Operation
import DoomDraft.Foundation.Decimal

/-!
# The stored form of an operation

`serialize` writes an operation as the value of a database key and
`deserialize` reads it back.  The reader accepts more than the writer produces:
it skips the second byte unread, treats the space after a number as optional
and lets numbers wrap.
-/

namespace DoomDraft.Document

/-- `serialize`. -/
def serialize : DocOp Byte → ByteString
  | .insert pos text => ascii ['I', ' '] ++ decimal pos ++ ascii [' '] ++ text
  | .delete pos len => ascii ['D', ' '] ++ decimal pos ++ ascii [' '] ++ decimal len

/-- `read_uint` in `deserialize`: a run of digits and the space behind it;
undefined where the source throws. -/
def readUint (s : ByteString) : Option (Nat × ByteString) :=
  let digits := s.takeWhile isDigit
  if digits = [] then none
  else
    let rest := s.dropWhile isDigit
    some (digits.foldl (fun value b => (value * 10 + digitValue b) % uint64Size) 0,
      if rest.head? = some (byte ' ') then rest.tail else rest)

/-- `deserialize`; undefined where the source throws `invalid_argument`. -/
def deserialize : ByteString → Option (DocOp Byte)
  | type :: _ :: s =>
      if type = byte 'I' then
        (readUint s).map fun (pos, text) => .insert pos text
      else if type = byte 'D' then
        (readUint s).bind fun (pos, s) => (readUint s).map fun (len, _) => .delete pos len
      else none
  | _ => none

/-- The numbers of the operation fit in 64 bits. -/
def DocOp.Fits {α : Type} : DocOp α → Prop
  | .insert pos _ => pos < uint64Size
  | .delete pos len => pos < uint64Size ∧ len < uint64Size

instance {α : Type} (op : DocOp α) : Decidable op.Fits :=
  match op with
  | .insert pos _ => inferInstanceAs (Decidable (pos < uint64Size))
  | .delete pos len => inferInstanceAs (Decidable (pos < uint64Size ∧ len < uint64Size))

theorem noDigitFirst_space (rest : ByteString) : NoDigitFirst (byte ' ' :: rest) := by
  intro b first
  obtain rfl := Option.some.inj first
  decide

theorem noDigitFirst_nil : NoDigitFirst [] := by
  simp [NoDigitFirst]

/-- Reading back a number and the space behind it. -/
theorem readUint_decimal_space {n : Nat} (fits : n < uint64Size) (rest : ByteString) :
    readUint (decimal n ++ byte ' ' :: rest) = some (n, rest) := by
  have stops := noDigitFirst_space rest
  simp only [readUint, takeWhile_decimal_append n stops, dropWhile_decimal_append n stops,
    decimal_ne_nil, if_false, foldl_wrapping_eq, decimalValue_decimal, Nat.mod_eq_of_lt fits,
    List.head?_cons, if_true, List.tail_cons]

/-- Reading back a number at the end of the string. -/
theorem readUint_decimal {n : Nat} (fits : n < uint64Size) :
    readUint (decimal n) = some (n, []) := by
  have digits := takeWhile_decimal_append n noDigitFirst_nil
  have rest := dropWhile_decimal_append n noDigitFirst_nil
  rw [List.append_nil] at digits rest
  simp [readUint, digits, rest, decimal_ne_nil, foldl_wrapping_eq, decimalValue_decimal,
    Nat.mod_eq_of_lt fits]

/-- What `serialize` writes is read back unchanged, whatever the text. -/
theorem deserialize_serialize {op : DocOp Byte} (fits : op.Fits) :
    deserialize (serialize op) = some op := by
  cases op with
  | insert pos text =>
      have read := readUint_decimal_space fits text
      simp only [serialize, ascii, List.map_cons, List.map_nil, List.cons_append, List.nil_append,
        List.append_assoc, deserialize, if_true, read, Option.map_some]
  | delete pos len =>
      have first := readUint_decimal_space fits.1 (decimal len)
      have second := readUint_decimal fits.2
      have other : byte 'D' ≠ byte 'I' := by decide
      simp only [serialize, ascii, List.map_cons, List.map_nil, List.cons_append, List.nil_append,
        List.append_assoc, deserialize, if_neg other, if_true, first, second, Option.map_some,
        Option.bind_some]

end DoomDraft.Document
