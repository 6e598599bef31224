import DoomDraft.Foundation.Decimal
import DoomDraft.Foundation.Unicode

/-!
# JSON texts

A decoder of JSON texts in UTF-8, and rules for showing what it reads.  The bytes
of characters beyond ASCII stand for themselves in strings, and a number is a
decimal fraction: a mantissa and a power of ten.
-/

namespace DoomDraft

/-- A JSON value. -/
inductive Json where
  | null
  | bool (value : Bool)
  | number (mantissa exponent : Int)
  | string (content : ByteString)
  | array (items : List Json)
  | object (members : List (ByteString × Json))

namespace Json

/-- An integral number. -/
def int (value : Int) : Json :=
  .number value 0

/-! ## Strings -/

/-- The value of a hexadecimal digit. -/
def hexValue (b : Byte) : Option Nat :=
  if isDigit b then some (digitValue b)
  else if 97 ≤ b.val ∧ b.val ≤ 102 then some (b.val - 87)
  else if 65 ≤ b.val ∧ b.val ≤ 70 then some (b.val - 55)
  else none

/-- The code unit with four hexadecimal digits. -/
def hexUnit (a b c d : Byte) : Option CodeUnit :=
  (hexValue a).bind fun a => (hexValue b).bind fun b => (hexValue c).bind fun c =>
    (hexValue d).map fun d => Fin.ofNat 0x10000 (((a * 16 + b) * 16 + c) * 16 + d)

/-- The byte for which a backslash and the given byte stand. -/
def shortEscape (n : Byte) : Option Byte :=
  if n = byte '"' ∨ n = byte '\\' ∨ n = byte '/' then some n
  else if n = byte 'b' then some 8
  else if n = byte 'f' then some 12
  else if n = byte 'n' then some 10
  else if n = byte 'r' then some 13
  else if n = byte 't' then some 9
  else none

/-- Put characters in front of the content that is read. -/
def withFront (front : ByteString) (read : Option (ByteString × ByteString)) :
    Option (ByteString × ByteString) :=
  read.map fun (content, rest) => (front ++ content, rest)

/-- The content of a string up to its closing quote, and what is behind it. -/
def readContent : ByteString → Option (ByteString × ByteString)
  | [] => none
  | c :: rest =>
      if c = byte '"' then some ([], rest)
      else if c = byte '\\' then
        match rest with
        | [] => none
        | n :: rest =>
            if n = byte 'u' then
              match rest with
              | h₀ :: h₁ :: h₂ :: h₃ :: rest =>
                  match hexUnit h₀ h₁ h₂ h₃ with
                  | none => none
                  | some u =>
                      if leading : IsLeading u then
                        match rest with
                        | c :: n :: l₀ :: l₁ :: l₂ :: l₃ :: rest =>
                            if c = byte '\\' ∧ n = byte 'u' then
                              match hexUnit l₀ l₁ l₂ l₃ with
                              | none => none
                              | some v =>
                                  if trailing : IsTrailing v then
                                    withFront (utf8 (pairPoint u v leading trailing))
                                      (readContent rest)
                                  else none
                            else none
                        | _ => none
                      else if IsTrailing u then none
                      else withFront (utf8 (u.castLE unit_le_point)) (readContent rest)
              | _ => none
            else
              match shortEscape n with
              | none => none
              | some b => withFront [b] (readContent rest)
      else if c.val < 0x20 then none
      else withFront [c] (readContent rest)

/-! ## Numbers -/

/-- The digits behind a decimal point, if there is one. -/
def readFraction (s : ByteString) : Option (ByteString × ByteString) :=
  if s.head? = some (byte '.') then
    let digits := s.tail.takeWhile isDigit
    if digits = [] then none else some (digits, s.tail.dropWhile isDigit)
  else some ([], s)

/-- The exponent, if there is one. -/
def readExponent (s : ByteString) : Option (Int × ByteString) :=
  if s.head? = some (byte 'e') ∨ s.head? = some (byte 'E') then
    let negative := s.tail.head? = some (byte '-')
    let signed := negative ∨ s.tail.head? = some (byte '+')
    let s := if signed then s.tail.tail else s.tail
    let digits := s.takeWhile isDigit
    if digits = [] then none
    else
      let value : Int := decimalValue digits
      some (if negative then -value else value, s.dropWhile isDigit)
  else some (0, s)

/-- A number and what is behind it. -/
def readNumber (s : ByteString) : Option (Json × ByteString) :=
  let negative := s.head? = some (byte '-')
  let s := if negative then s.tail else s
  let digits := s.takeWhile isDigit
  if digits = [] ∨ (digits.head? = some (byte '0') ∧ digits.tail ≠ []) then none
  else
    (readFraction (s.dropWhile isDigit)).bind fun (fraction, rest) =>
      (readExponent rest).map fun (exponent, rest) =>
        let mantissa : Int := decimalValue (digits ++ fraction)
        (.number (if negative then -mantissa else mantissa) (exponent - fraction.length), rest)

/-! ## Values -/

/-- Leave out white space. -/
def skipSpace (s : ByteString) : ByteString :=
  s.dropWhile fun b => b = byte ' ' ∨ b = 9 ∨ b = 10 ∨ b = 13

/-- Read `word`, which stands for `value`. -/
def readWord (word : ByteString) (value : Json) (s : ByteString) : Option (Json × ByteString) :=
  if word.isPrefixOf s then some (value, s.drop word.length) else none

mutual

/-- A value and what is behind it. -/
def readValue : Nat → ByteString → Option (Json × ByteString)
  | 0, _ => none
  | fuel + 1, s =>
      match skipSpace s with
      | [] => none
      | c :: rest =>
          if c = byte '"' then (readContent rest).map fun (content, rest) => (.string content, rest)
          else if c = byte '\x7b' then
            if (skipSpace rest).head? = some (byte '\x7d') then
              some (.object [], (skipSpace rest).tail)
            else (readMembers fuel rest).map fun (members, rest) => (.object members, rest)
          else if c = byte '[' then
            if (skipSpace rest).head? = some (byte ']') then
              some (.array [], (skipSpace rest).tail)
            else (readItems fuel rest).map fun (items, rest) => (.array items, rest)
          else if c = byte 't' then readWord (ascii ['t', 'r', 'u', 'e']) (.bool true) (c :: rest)
          else if c = byte 'f' then
            readWord (ascii ['f', 'a', 'l', 's', 'e']) (.bool false) (c :: rest)
          else if c = byte 'n' then readWord (ascii ['n', 'u', 'l', 'l']) .null (c :: rest)
          else readNumber (c :: rest)

/-- The members of an object up to its closing brace, and what is behind it. -/
def readMembers : Nat → ByteString → Option (List (ByteString × Json) × ByteString)
  | 0, _ => none
  | fuel + 1, s =>
      if (skipSpace s).head? = some (byte '"') then
        (readContent (skipSpace s).tail).bind fun (key, rest) =>
          if (skipSpace rest).head? = some (byte ':') then
            (readValue fuel (skipSpace rest).tail).bind fun (value, rest) =>
              match skipSpace rest with
              | [] => none
              | c :: rest =>
                  if c = byte ',' then
                    (readMembers fuel rest).map fun (members, rest) =>
                      ((key, value) :: members, rest)
                  else if c = byte '\x7d' then some ([(key, value)], rest)
                  else none
          else none
      else none

/-- The items of an array up to its closing bracket, and what is behind it. -/
def readItems : Nat → ByteString → Option (List Json × ByteString)
  | 0, _ => none
  | fuel + 1, s =>
      (readValue fuel s).bind fun (value, rest) =>
        match skipSpace rest with
        | [] => none
        | c :: rest =>
            if c = byte ',' then
              (readItems fuel rest).map fun (items, rest) => (value :: items, rest)
            else if c = byte ']' then some ([value], rest)
            else none

end

/-- Decode a JSON text.  A value takes more bytes than it has levels, so the
length bounds the depth. -/
def decode (s : ByteString) : Option Json :=
  (readValue (s.length + 1) s).bind fun (value, rest) =>
    if skipSpace rest = [] then some value else none

/-! ## Rules for strings -/

/-- Between quotes, `text` is read as `content`. -/
def Encodes (text content : ByteString) : Prop :=
  ∀ rest, readContent (text ++ byte '"' :: rest) = some (content, rest)

theorem encodes_nil : Encodes [] [] := by
  intro rest
  rw [List.nil_append, readContent.eq_def]
  simp

/-- A piece that is read as `front` whatever is behind it. -/
theorem Encodes.append {piece front text content : ByteString}
    (reads : ∀ rest, readContent (piece ++ rest) = withFront front (readContent rest))
    (encodes : Encodes text content) : Encodes (piece ++ text) (front ++ content) := by
  intro rest
  rw [List.append_assoc, reads, encodes rest]
  rfl

/-- A byte that stands for itself. -/
def Plain (c : Byte) : Prop :=
  c ≠ byte '"' ∧ c ≠ byte '\\' ∧ 0x20 ≤ c.val

instance (c : Byte) : Decidable (Plain c) :=
  inferInstanceAs (Decidable (_ ∧ _))

theorem readContent_plain {c : Byte} (plain : Plain c) (rest : ByteString) :
    readContent ([c] ++ rest) = withFront [c] (readContent rest) := by
  obtain ⟨notQuote, notBackslash, visible⟩ := plain
  rw [List.singleton_append, readContent.eq_def]
  simp only [if_neg notQuote, if_neg notBackslash, if_neg (Nat.not_lt.mpr visible)]

theorem readContent_short {n b : Byte} (escape : shortEscape n = some b) (rest : ByteString) :
    readContent ([byte '\\', n] ++ rest) = withFront [b] (readContent rest) := by
  have notUnicode : n ≠ byte 'u' := by
    rintro rfl
    have noEscape : shortEscape (byte 'u') = none := by decide
    rw [noEscape] at escape
    contradiction
  have notQuote : byte '\\' ≠ byte '"' := by decide
  rw [List.cons_append, List.singleton_append, readContent.eq_def]
  simp only [if_neg notQuote, if_neg notUnicode, if_true, escape]

/-- Four hexadecimal digits of an ASCII character. -/
theorem readContent_unicode {h₀ h₁ h₂ h₃ : Byte} {u : CodeUnit}
    (digits : hexUnit h₀ h₁ h₂ h₃ = some u) (isAscii : u.val < 0x80) (rest : ByteString) :
    readContent ([byte '\\', byte 'u', h₀, h₁, h₂, h₃] ++ rest) =
      withFront [Fin.ofNat 256 u.val] (readContent rest) := by
  have notQuote : byte '\\' ≠ byte '"' := by decide
  have notLeading : ¬ IsLeading u := fun leading => by
    have := leading.1
    omega
  have notTrailing : ¬ IsTrailing u := fun trailing => by
    have := trailing.1
    omega
  have encoded : utf8 (u.castLE (by decide)) = [Fin.ofNat 256 u.val] := utf8_of_lt isAscii
  simp only [List.cons_append, List.nil_append]
  rw [readContent.eq_def]
  simp only [if_neg notQuote, if_true, digits, dif_neg notLeading, if_neg notTrailing, encoded]

theorem encodes_of_plain {s : ByteString} (plain : ∀ c ∈ s, Plain c) : Encodes s s := by
  induction s with
  | nil => exact encodes_nil
  | cons c s ih =>
      rw [List.forall_mem_cons] at plain
      exact (ih plain.2).append (readContent_plain plain.1)

/-! ## Rules for values -/

/-- The text does not go on with a number. -/
def NumberEnds (rest : ByteString) : Prop :=
  ∀ b ∈ rest.head?, isDigit b = false ∧ b ≠ byte '.' ∧ b ≠ byte 'e' ∧ b ≠ byte 'E'

theorem numberEnds_cons_iff {c : Byte} {rest : ByteString} : NumberEnds (c :: rest) ↔
    isDigit c = false ∧ c ≠ byte '.' ∧ c ≠ byte 'e' ∧ c ≠ byte 'E' := by
  simp [NumberEnds]

/-- The text is read as the value, whatever is behind it. -/
def Reads (text : ByteString) (value : Json) : Prop :=
  ∀ fuel, text.length ≤ fuel → ∀ rest, NumberEnds rest →
    readValue fuel (text ++ rest) = some (value, rest)

/-- Up to the closing brace, the text is read as the members. -/
def ReadsMembers (text : ByteString) (members : List (ByteString × Json)) : Prop :=
  text.head? = some (byte '"') ∧ ∀ fuel, text.length ≤ fuel → ∀ rest,
    readMembers fuel (text ++ byte '\x7d' :: rest) = some (members, rest)

theorem skipSpace_cons {c : Byte} (visible : 0x20 < c.val) (rest : ByteString) :
    skipSpace (c :: rest) = c :: rest := by
  have solid : ∀ b : Byte, b.val ≤ 0x20 → c ≠ b := by
    rintro b small rfl
    omega
  rw [skipSpace, List.dropWhile_cons_of_neg]
  simp [solid (byte ' ') (by decide), solid 9 (by decide), solid 10 (by decide),
    solid 13 (by decide)]

theorem Reads.decode {text : ByteString} {value : Json} (reads : Reads text value) :
    decode text = some value := by
  have read := reads (text.length + 1) (Nat.le_succ _) [] (by simp [NumberEnds])
  rw [List.append_nil] at read
  simp [Json.decode, read, skipSpace]

theorem exists_fuel {c : Byte} {text : ByteString} {fuel : Nat}
    (enough : (c :: text).length ≤ fuel) : ∃ less, fuel = less + 1 :=
  ⟨fuel - 1, (Nat.sub_add_cancel (Nat.le_trans (Nat.le_add_left 1 text.length) enough)).symm⟩

theorem reads_string {text content : ByteString} (encodes : Encodes text content) :
    Reads (byte '"' :: (text ++ [byte '"'])) (.string content) := by
  intro fuel enough rest _
  obtain ⟨fuel, rfl⟩ := exists_fuel enough
  have read := encodes rest
  rw [List.cons_append, List.append_assoc, List.singleton_append, readValue,
    skipSpace_cons (by decide)]
  simp only [if_true, read, Option.map_some]

/-- A number without a fraction and an exponent. -/
theorem readNumber_int {digits : ByteString} (positive : digits ≠ [])
    (isDigits : ∀ b ∈ digits, isDigit b = true)
    (noLeadingZero : digits.head? = some (byte '0') → digits.tail = []) {rest : ByteString}
    (ends : NumberEnds rest) :
    readNumber (digits ++ rest) = some (.int (decimalValue digits), rest) ∧
      readNumber (byte '-' :: (digits ++ rest)) = some (.int (-decimalValue digits), rest) := by
  obtain ⟨first, others, rfl⟩ := List.exists_cons_of_ne_nil positive
  have notMinus : first ≠ byte '-' := by
    rintro rfl
    exact absurd (isDigits (byte '-') List.mem_cons_self) (by decide)
  have run : ((first :: others) ++ rest).takeWhile isDigit = first :: others := by
    rw [List.takeWhile_append_of_pos isDigits]
    cases rest with
    | nil => simp
    | cons b rest => simp [(ends b rfl).1]
  have behind : ((first :: others) ++ rest).dropWhile isDigit = rest := by
    rw [List.dropWhile_append_of_pos isDigits]
    cases rest with
    | nil => rfl
    | cons b rest => simp [(ends b rfl).1]
  have noFraction : readFraction rest = some ([], rest) := by
    rw [readFraction, if_neg]
    intro point
    exact (ends _ point).2.1 rfl
  have noExponent : readExponent rest = some (0, rest) := by
    rw [readExponent, if_neg]
    rintro (small | large)
    · exact (ends _ small).2.2.1 rfl
    · exact (ends _ large).2.2.2 rfl
  have accepted : ¬ (first :: others = [] ∨
      (first :: others).head? = some (byte '0') ∧ (first :: others).tail ≠ []) := by
    rintro (empty | ⟨zero, more⟩)
    · exact positive empty
    · exact more (noLeadingZero zero)
  constructor
  · have unsigned : ((first :: others) ++ rest).head? ≠ some (byte '-') := by
      simpa using notMinus
    simp only [readNumber, if_neg unsigned, run, behind, if_neg accepted, noFraction, noExponent,
      Option.bind_some, Option.map_some, List.append_nil]
    rfl
  · simp only [List.head?_cons, List.tail_cons] at accepted
    simp only [readNumber, List.head?_cons, if_true, List.tail_cons, run, behind, if_neg accepted,
      noFraction, noExponent, Option.bind_some, Option.map_some, List.append_nil]
    rfl

theorem reads_number {text : ByteString} {value : Json} {c : Byte} {tail : ByteString}
    (split : text = c :: tail) (start : isDigit c = true ∨ c = byte '-')
    (reads : ∀ rest, NumberEnds rest → readNumber (text ++ rest) = some (value, rest)) :
    Reads text value := by
  subst split
  intro fuel enough rest ends
  obtain ⟨fuel, rfl⟩ := exists_fuel enough
  have read := reads rest ends
  have other : ∀ d : Byte, isDigit d = false → d ≠ byte '-' → c ≠ d := by
    rintro d notDigit notMinus rfl
    rcases start with digit | minus
    · rw [digit] at notDigit
      contradiction
    · exact notMinus minus
  have visible : 0x20 < c.val := by
    rcases start with digit | rfl
    · rw [isDigit, decide_eq_true_eq] at digit
      omega
    · decide
  rw [List.cons_append, readValue, skipSpace_cons visible]
  simp only [if_neg (other (byte '"') (by decide) (by decide)),
    if_neg (other (byte '\x7b') (by decide) (by decide)),
    if_neg (other (byte '[') (by decide) (by decide)),
    if_neg (other (byte 't') (by decide) (by decide)),
    if_neg (other (byte 'f') (by decide) (by decide)),
    if_neg (other (byte 'n') (by decide) (by decide))]
  exact read

theorem reads_decimalInt (value : Int) : Reads (decimalInt value) (.int value) := by
  have noLeadingZero : ∀ n, (decimal n).head? = some (byte '0') → (decimal n).tail = [] := by
    intro n zero
    rcases Nat.eq_zero_or_pos n with rfl | positive
    · decide
    · exact absurd zero (head?_decimal_ne positive)
  have numbers := fun (n : Nat) (rest : ByteString) (ends : NumberEnds rest) =>
    readNumber_int (decimal_ne_nil n) (fun _ => isDigit_of_mem_decimal) (noLeadingZero n) ends
  cases value with
  | ofNat n =>
      obtain ⟨c, tail, split⟩ := List.exists_cons_of_ne_nil (decimal_ne_nil n)
      have digit : isDigit c = true := isDigit_of_mem_decimal (split ▸ List.mem_cons_self)
      refine reads_number split (Or.inl digit) fun rest ends => ?_
      have read := (numbers n rest ends).1
      rwa [decimalValue_decimal] at read
  | negSucc n =>
      refine reads_number rfl (Or.inr rfl) fun rest ends => ?_
      have read := (numbers (n + 1) rest ends).2
      rwa [decimalValue_decimal] at read

theorem reads_decimal (n : Nat) : Reads (decimal n) (.int n) :=
  reads_decimalInt n

/-! ## Rules for objects -/

/-- A member with its key and its value. -/
def memberText (key value : ByteString) : ByteString :=
  byte '"' :: (key ++ byte '"' :: byte ':' :: value)

theorem readMembers_memberText {key content value : ByteString} {json : Json}
    (encodes : Encodes key content) (reads : Reads value json) {fuel : Nat}
    (enough : (memberText key value).length ≤ fuel + 1) {c : Byte} (visible : 0x20 < c.val)
    (ends : NumberEnds [c]) (rest : ByteString) :
    readMembers (fuel + 1) (memberText key value ++ c :: rest) =
      if c = byte ',' then
        (readMembers fuel rest).map fun (members, rest) => ((content, json) :: members, rest)
      else if c = byte '\x7d' then some ([(content, json)], rest)
      else none := by
  have shorter : value.length ≤ fuel := by
    simp only [memberText, List.length_cons, List.length_append] at enough
    omega
  have readKey := encodes (byte ':' :: (value ++ c :: rest))
  have readJson := reads fuel shorter (c :: rest) ends
  rw [memberText, List.cons_append, List.append_assoc, readMembers, skipSpace_cons (by decide)]
  simp only [List.cons_append, List.head?_cons, if_true, List.tail_cons, readKey, Option.bind_some,
    skipSpace_cons (show 0x20 < (byte ':').val by decide), readJson, skipSpace_cons visible]

theorem readsMembers_single {key content value : ByteString} {json : Json}
    (encodes : Encodes key content) (reads : Reads value json) :
    ReadsMembers (memberText key value) [(content, json)] := by
  refine ⟨rfl, fun fuel enough rest => ?_⟩
  obtain ⟨fuel, rfl⟩ := exists_fuel enough
  rw [readMembers_memberText encodes reads enough (by decide)
    (numberEnds_cons_iff.mpr (by decide))]
  rfl

theorem ReadsMembers.cons {key content value text : ByteString} {json : Json}
    {members : List (ByteString × Json)} (encodes : Encodes key content) (reads : Reads value json)
    (others : ReadsMembers text members) :
    ReadsMembers (memberText key value ++ byte ',' :: text) ((content, json) :: members) := by
  refine ⟨rfl, fun fuel enough rest => ?_⟩
  obtain ⟨fuel, rfl⟩ := exists_fuel enough
  rw [List.length_append, List.length_cons] at enough
  have shorter : text.length ≤ fuel := by
    simp only [memberText, List.length_cons] at enough
    omega
  rw [List.append_assoc, List.cons_append,
    readMembers_memberText encodes reads (by omega) (by decide)
      (numberEnds_cons_iff.mpr (by decide)),
    if_pos rfl, others.2 fuel shorter]
  rfl

theorem ReadsMembers.object {text : ByteString} {members : List (ByteString × Json)}
    (reads : ReadsMembers text members) :
    Reads (byte '\x7b' :: (text ++ [byte '\x7d'])) (.object members) := by
  obtain ⟨start, reads⟩ := reads
  intro fuel enough rest _
  obtain ⟨fuel, rfl⟩ := exists_fuel enough
  obtain ⟨tail, rfl⟩ := List.head?_eq_some_iff.mp start
  simp only [List.length_cons, List.length_append] at enough
  have read := reads fuel (by simp only [List.length_cons]; omega) rest
  rw [List.cons_append, List.append_assoc, List.singleton_append, readValue,
    skipSpace_cons (by decide)]
  rw [List.cons_append] at read ⊢
  simp only [skipSpace_cons (show 0x20 < (byte '"').val by decide), List.head?_cons,
    Option.some.injEq]
  rw [if_neg (by decide), if_true, if_neg (by decide), read]
  rfl

end Json

end DoomDraft
