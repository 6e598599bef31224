import DoomDraft.Browser.Wire
import DoomDraft.Server.PostOp

/-!
# Integer fields

The number that `json_get_int` returns against the literal that it has read.  The
loop over the digits does not look for overflow, so they agree exactly when the
digits denote a number of the 64-bit signed type.
-/

namespace DoomDraft.Server

open Browser

/-- The literal of a number: its sign and its digits. -/
structure IntLiteral where
  negative : Bool
  digits : ByteString
  deriving DecidableEq

/-- The number that a literal denotes. -/
def IntLiteral.value (literal : IntLiteral) : Int :=
  if literal.negative then -(decimalValue literal.digits : Int) else decimalValue literal.digits

/-- The literal at the front of a string, as the end of `json_get_int` finds it. -/
def readLiteral (s : ByteString) : Option IntLiteral :=
  let s := s.dropWhile fun b => b = byte ' ' ∨ b = 9
  let signed := s.head? = some (byte '-') ∨ s.head? = some (byte '+')
  let digits := (if signed then s.tail else s).takeWhile isDigit
  if digits = [] then none else some ⟨s.head? = some (byte '-'), digits⟩

/-- The literal that `json_get_int` reads. -/
def intLiteral (body key : ByteString) : Option IntLiteral :=
  (afterFirst (quoted key) body).bind fun rest => (afterFirst [byte ':'] rest).bind readLiteral

/-- A value of `int64_t`. -/
def InInt64 (v : Int) : Prop :=
  -2 ^ 63 ≤ v ∧ v < 2 ^ 63

instance (v : Int) : Decidable (InInt64 v) :=
  inferInstanceAs (Decidable (_ ∧ _))

/-- A round of the loop over the digits, undefined where one of its two steps
leaves the range of `int64_t`. -/
def checkedDigit (v : Int) (b : Byte) : Option Int :=
  if InInt64 (v * 10) ∧ InInt64 (v * 10 + digitValue b) then some (v * 10 + digitValue b)
  else none

/-- The negation behind the loop. -/
def checkedSign (negative : Bool) (v : Int) : Option Int :=
  if negative then if InInt64 (-v) then some (-v) else none else some v

/-- The value of a literal, undefined where a step of its computation leaves the
range of `int64_t`. -/
def IntLiteral.checkedValue (literal : IntLiteral) : Option Int :=
  (literal.digits.foldlM checkedDigit 0).bind (checkedSign literal.negative)

/-- A value that is returned is the one of the literal, computed within the range
of `int64_t`, and a literal outside of the range is rejected. -/
def DecodesExactly (body key : ByteString) : Prop :=
  (∀ v, jsonGetInt body key = some v → ∃ literal, intLiteral body key = some literal ∧
    v = literal.value ∧ literal.checkedValue = some v) ∧
  ∀ literal, intLiteral body key = some literal → ¬ InInt64 literal.value →
    jsonGetInt body key = none

/-- The digits that are read denote a number below 2^63. -/
def FieldFits (body key : ByteString) : Prop :=
  ∀ literal, intLiteral body key = some literal → decimalValue literal.digits < 2 ^ 63

/-! ## The loop over the digits -/

/-- The end of `json_get_int` returns the value of a literal, wrapped. -/
theorem readInt_eq (s : ByteString) :
    readInt s = (readLiteral s).map fun literal => int64 literal.value := by
  simp only [readInt, readLiteral, foldl_int64_eq]
  generalize (s.dropWhile fun b => b = byte ' ' ∨ b = 9) = s
  generalize (if s.head? = some (byte '-') ∨ s.head? = some (byte '+') then s.tail
    else s).takeWhile isDigit = digits
  by_cases noDigits : digits = []
  · rw [if_pos noDigits, if_pos noDigits]
    rfl
  · rw [if_neg noDigits, if_neg noDigits]
    by_cases minus : s.head? = some (byte '-')
    · simp [minus, IntLiteral.value, int64, Int.bmod_neg_bmod]
    · simp [minus, IntLiteral.value]

theorem jsonGetInt_eq (body key : ByteString) :
    jsonGetInt body key = (intLiteral body key).map fun literal => int64 literal.value := by
  simp only [jsonGetInt, intLiteral, Option.map_bind, readInt_eq, Function.comp_def]

theorem decimalValue_concat (digits : ByteString) (b : Byte) :
    decimalValue (digits ++ [b]) = decimalValue digits * 10 + digitValue b := by
  simp [decimalValue]

theorem checkedDigit_eq_some_iff {n : Nat} {b : Byte} {v : Int} :
    checkedDigit n b = some v ↔
      n * 10 + digitValue b < 2 ^ 63 ∧ v = (n * 10 + digitValue b : Nat) := by
  have inRange : (InInt64 ((n : Int) * 10) ∧ InInt64 ((n : Int) * 10 + digitValue b)) ↔
      n * 10 + digitValue b < 2 ^ 63 := by
    unfold InInt64
    omega
  rw [checkedDigit, Option.ite_none_right_eq_some, inRange, Option.some.injEq, eq_comm]
  push_cast
  rfl

/-- The loop stays within the range exactly when the value of the digits does. -/
theorem foldlM_checkedDigit_eq_some_iff (digits : ByteString) (v : Int) :
    digits.foldlM checkedDigit 0 = some v ↔
      decimalValue digits < 2 ^ 63 ∧ v = decimalValue digits := by
  induction digits using List.reverseRecOn generalizing v with
  | nil => simp [decimalValue, eq_comm]
  | append_singleton digits b ih =>
      rw [List.foldlM_append, decimalValue_concat]
      simp only [List.foldlM_cons, List.foldlM_nil, Option.bind_eq_bind, Option.bind_eq_some_iff,
        ih, Option.pure_def, Option.some.injEq]
      constructor
      · rintro ⟨_, ⟨small, rfl⟩, _, step, rfl⟩
        exact checkedDigit_eq_some_iff.mp step
      · intro result
        exact ⟨_, ⟨by omega, rfl⟩, v, checkedDigit_eq_some_iff.mpr result, rfl⟩

theorem IntLiteral.checkedValue_eq_some_iff (literal : IntLiteral) (v : Int) :
    literal.checkedValue = some v ↔
      decimalValue literal.digits < 2 ^ 63 ∧ v = literal.value := by
  obtain ⟨negative, digits⟩ := literal
  simp only [checkedValue, Option.bind_eq_some_iff, foldlM_checkedDigit_eq_some_iff]
  have inRange : decimalValue digits < 2 ^ 63 → InInt64 (-(decimalValue digits : Int)) := by
    unfold InInt64
    omega
  constructor
  · rintro ⟨_, ⟨small, rfl⟩, signed⟩
    refine ⟨small, ?_⟩
    cases negative with
    | true => exact (Option.some.inj (Option.ite_none_right_eq_some.mp signed).2).symm
    | false => exact (Option.some.inj signed).symm
  · rintro ⟨small, rfl⟩
    refine ⟨_, ⟨small, rfl⟩, ?_⟩
    cases negative with
    | true => exact if_pos (inRange small)
    | false => rfl

/-! ## Literals and what is returned -/

theorem int64_of_inInt64 {v : Int} (inRange : InInt64 v) : int64 v = v := by
  rw [int64, uint64Size]
  obtain ⟨lower, upper⟩ := inRange
  apply Int.bmod_eq_of_le <;> omega

theorem inInt64_int64 (v : Int) : InInt64 (int64 v) := by
  have lower := @Int.le_bmod v uint64Size (by decide)
  have upper := @Int.bmod_lt v uint64Size (by decide)
  rw [uint64Size] at lower upper
  rw [int64, uint64Size]
  constructor <;> omega

theorem IntLiteral.inInt64_value {literal : IntLiteral}
    (fits : decimalValue literal.digits < 2 ^ 63) : InInt64 literal.value := by
  unfold InInt64 value
  split <;> omega

/-- For every body and key, the number is decoded exactly as long as its digits
denote one below 2^63. -/
theorem decodesExactly_iff (body key : ByteString) :
    DecodesExactly body key ↔ FieldFits body key := by
  unfold DecodesExactly FieldFits
  rw [jsonGetInt_eq]
  constructor
  · rintro ⟨exactly, -⟩ literal read
    obtain ⟨other, otherRead, -, checked⟩ := exactly (int64 literal.value) (by rw [read]; rfl)
    obtain rfl := Option.some.inj (read.symm.trans otherRead)
    exact ((literal.checkedValue_eq_some_iff _).mp checked).1
  · intro fits
    refine ⟨fun v returned => ?_, fun literal read outside => ?_⟩
    · obtain ⟨literal, read, rfl⟩ := Option.map_eq_some_iff.mp returned
      have small := fits literal read
      have same := int64_of_inInt64 (IntLiteral.inInt64_value small)
      exact ⟨literal, read, same, (literal.checkedValue_eq_some_iff _).mpr ⟨small, same⟩⟩
    · exact absurd (IntLiteral.inInt64_value (fits literal read)) outside

/-! ## A posted operation -/

/-- The literal that the reader finds for the field, a run of digits with its sign,
denotes `n`; of `1e3` it reads 1, and of `2.9` it reads 2. -/
def Written (body key : ByteString) (n : Nat) : Prop :=
  ∃ literal, intLiteral body key = some literal ∧ literal.value = n

/-- The integer fields of an operation with their numbers. -/
def PostedOp.intFields (posted : PostedOp) : List (ByteString × Nat) :=
  match posted.op with
  | .insert pos _ => [(ascii ['p', 'o', 's'], pos), (ascii ['s', 'e', 'q'], posted.seq)]
  | .delete pos len => [(ascii ['p', 'o', 's'], pos), (ascii ['l', 'e', 'n'], len),
      (ascii ['s', 'e', 'q'], posted.seq)]

/-- The operation has the numbers of the literals that the reader finds in the body. -/
def PostedOp.AsWritten (posted : PostedOp) (body : ByteString) : Prop :=
  ∀ field ∈ posted.intFields, Written body field.1 field.2

/-- The numbers of a posted operation are what the reader returns. -/
theorem jsonGetInt_of_mem_intFields {body : ByteString} {posted : PostedOp}
    (parsed : parsePostOp body = .ok posted) {field : ByteString × Nat}
    (isField : field ∈ posted.intFields) : jsonGetInt body field.1 = some (field.2 : Int) := by
  cases parsePostOp_eq_ok_iff.mp parsed with
  | insert pos seq text clientId type posRead textRead idRead seqRead =>
      simp only [PostedOp.intFields, List.mem_cons, List.not_mem_nil, or_false] at isField
      rcases isField with rfl | rfl
      · exact posRead
      · exact seqRead
  | delete pos len seq clientId type posRead lenRead idRead seqRead =>
      simp only [PostedOp.intFields, List.mem_cons, List.not_mem_nil, or_false] at isField
      rcases isField with rfl | rfl | rfl
      · exact posRead
      · exact lenRead
      · exact seqRead

/-- A number that is returned is that of the literal exactly when the digits denote
one below 2^63. -/
theorem written_iff {body key : ByteString} {n : Nat}
    (returned : jsonGetInt body key = some (n : Int)) :
    Written body key n ↔ FieldFits body key := by
  rw [jsonGetInt_eq] at returned
  obtain ⟨literal, read, value⟩ := Option.map_eq_some_iff.mp returned
  have only : ∀ other, intLiteral body key = some other → other = literal :=
    fun other otherRead => Option.some.inj (otherRead.symm.trans read)
  constructor
  · rintro ⟨other, otherRead, same⟩ another anotherRead
    obtain rfl := only other otherRead
    obtain rfl := only another anotherRead
    have upper := (inInt64_int64 another.value).2
    rw [value] at upper
    unfold IntLiteral.value at same
    split at same <;> omega
  · intro fits
    refine ⟨literal, read, ?_⟩
    rw [← value, int64_of_inInt64 (IntLiteral.inInt64_value (fits literal read))]

/-- Of a body, `json_get_int` decodes a key exactly as long as the digits denote a
number below 2^63.  In the operation that a POST of the body stores, the numbers are
those of the literals that were read exactly when this is true of each integer field. -/
theorem int_fields_iff (body : ByteString) :
    (∀ key, DecodesExactly body key ↔ FieldFits body key) ∧
      ∀ posted, parsePostOp body = .ok posted →
        (posted.AsWritten body ↔ ∀ field ∈ posted.intFields, FieldFits body field.1) := by
  refine ⟨decodesExactly_iff body, fun posted parsed => ?_⟩
  exact forall₂_congr fun field isField => written_iff (jsonGetInt_of_mem_intFields parsed isField)

/-- The body of a deletion at 3. -/
def deletionBody : ByteString :=
  stringify (opToWire (.delete 3 2) 1 (units ['c']))

theorem int_fields_deletion :
    PostedOp.AsWritten ⟨.delete 3 2, ascii ['c'], 1⟩ deletionBody := by
  have parsed : parsePostOp deletionBody = .ok ⟨.delete 3 2, ascii ['c'], 1⟩ := by
    decide +kernel
  refine ((int_fields_iff deletionBody).2 _ parsed).mpr fun field isField literal read => ?_
  have small : ∀ field ∈ PostedOp.intFields ⟨.delete 3 2, ascii ['c'], 1⟩,
      ∀ literal ∈ intLiteral deletionBody field.1, decimalValue literal.digits < 2 ^ 63 := by
    decide +kernel
  exact small field isField literal read

/-- The body of an insertion at 2^64. -/
def overflowingBody : ByteString :=
  stringify (opToWire (.insert (2 ^ 64) (units ['x'])) 0 (units ['c']))

/-- With wrapping arithmetic it is stored as an insertion at 0. -/
theorem overflowingBody_accepted :
    parsePostOp overflowingBody = .ok ⟨.insert 0 (ascii ['x']), ascii ['c'], 0⟩ ∧
      ¬ ∀ body key, DecodesExactly body key := by
  refine ⟨by decide +kernel, fun always => ?_⟩
  have read : intLiteral overflowingBody (ascii ['p', 'o', 's']) =
      some ⟨false, decimal (2 ^ 64)⟩ := by
    decide +kernel
  have rejected := (always overflowingBody (ascii ['p', 'o', 's'])).2 _ read (by decide +kernel)
  have returned : jsonGetInt overflowingBody (ascii ['p', 'o', 's']) = some 0 := by
    decide +kernel
  rw [returned] at rejected
  contradiction

end DoomDraft.Server
