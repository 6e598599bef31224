import DoomDraft.Browser.Wire
import DoomDraft.Server.Json

/-!
# Quoted strings in a body

What the server makes of a string that the browser has quoted.  The reader
undoes four escapes only, and the search for a key does not know whether it is
inside a string.
-/

namespace DoomDraft.Server

open Browser Document

/-! ## Code points within a string -/

/-- What the reader makes of a quoted code point. -/
def received (c : CodePoint) : ByteString :=
  if c.val = 8 then ascii ['b']
  else if c.val = 12 then ascii ['f']
  else if c.val = 13 then ascii ['r']
  else if (c.val < 0x20 ∧ c.val ≠ 9 ∧ c.val ≠ 10) ∨ IsSurrogate c then (unicodeEscape c).tail
  else utf8 c

/-- The reader gets the code point back. -/
def Survives (c : CodePoint) : Prop :=
  (0x20 ≤ c.val ∨ c.val = 9 ∨ c.val = 10) ∧ ¬ IsSurrogate c

instance (c : CodePoint) : Decidable (Survives c) :=
  inferInstanceAs (Decidable (_ ∧ _))

theorem hexDigit_clean : ∀ n < 16, hexDigit n ≠ backslash ∧ hexDigit n ≠ quote := by
  decide

theorem unicodeEscape_tail_clean (c : CodePoint) :
    backslash ∉ (unicodeEscape c).tail ∧ quote ∉ (unicodeEscape c).tail := by
  have digits : ∀ n, hexDigit (n % 0x10) ≠ backslash ∧ hexDigit (n % 0x10) ≠ quote :=
    fun n => hexDigit_clean _ (Nat.mod_lt n (by decide))
  have first := digits (c.val / 0x1000)
  have second := digits (c.val / 0x100)
  have third := digits (c.val / 0x10)
  have fourth := digits c.val
  have letter : byte 'u' ≠ backslash ∧ byte 'u' ≠ quote := by decide
  simp only [unicodeEscape, List.tail_cons, List.mem_cons, List.not_mem_nil, or_false, not_or]
  exact ⟨⟨letter.1.symm, first.1.symm, second.1.symm, third.1.symm, fourth.1.symm⟩,
    letter.2.symm, first.2.symm, second.2.symm, third.2.symm, fourth.2.symm⟩

theorem utf8_clean {c : CodePoint} (notQuote : c.val ≠ 34) (notBackslash : c.val ≠ 92) :
    backslash ∉ utf8 c ∧ quote ∉ utf8 c := by
  rcases Nat.lt_or_ge c.val 0x80 with small | large
  · have bound : c.val % 256 = c.val := Nat.mod_eq_of_lt (by omega)
    rw [utf8_of_lt small]
    constructor <;> intro member
    · have same := congrArg Fin.val (List.mem_singleton.mp member)
      exact notBackslash (bound.symm.trans same.symm)
    · have same := congrArg Fin.val (List.mem_singleton.mp member)
      exact notQuote (bound.symm.trans same.symm)
  · constructor <;> intro member
    · exact absurd (le_of_mem_utf8 large member) (by decide)
    · exact absurd (le_of_mem_utf8 large member) (by decide)

/-- The three ways to quote a code point, and what the reader makes of each. -/
theorem quotePoint_cases (c : CodePoint) :
    (∃ n, quotePoint c = [backslash, n] ∧ received c = [unescape n] ∧ (n = quote ↔ c.val = 34)) ∨
      (quotePoint c = unicodeEscape c ∧ received c = (unicodeEscape c).tail ∧ c.val ≠ 34) ∨
      (quotePoint c = utf8 c ∧ received c = utf8 c ∧ c.val ≠ 34 ∧ c.val ≠ 92) := by
  by_cases escaped : c.val = 8 ∨ c.val = 9 ∨ c.val = 10 ∨ c.val = 12 ∨ c.val = 13 ∨
      c.val = 34 ∨ c.val = 92
  · left
    rcases escaped with value | value | value | value | value | value | value
    · obtain rfl : c = 8 := Fin.ext value
      exact ⟨byte 'b', by decide, by decide, by decide⟩
    · obtain rfl : c = 9 := Fin.ext value
      exact ⟨byte 't', by decide, by decide, by decide⟩
    · obtain rfl : c = 10 := Fin.ext value
      exact ⟨byte 'n', by decide, by decide, by decide⟩
    · obtain rfl : c = 12 := Fin.ext value
      exact ⟨byte 'f', by decide, by decide, by decide⟩
    · obtain rfl : c = 13 := Fin.ext value
      exact ⟨byte 'r', by decide, by decide, by decide⟩
    · obtain rfl : c = 34 := Fin.ext value
      exact ⟨byte '"', by decide, by decide, by decide⟩
    · obtain rfl : c = 92 := Fin.ext value
      exact ⟨byte '\\', by decide, by decide, by decide⟩
  · right
    simp only [not_or] at escaped
    obtain ⟨not8, not9, not10, not12, not13, not34, not92⟩ := escaped
    by_cases control : c.val < 0x20 ∨ IsSurrogate c
    · left
      refine ⟨?_, ?_, not34⟩
      · simp only [quotePoint, not8, not9, not10, not12, not13, not34, not92, control, if_false,
          if_true]
      · simp only [received, not8, not12, not13, not9, not10, ne_eq, not_false_eq_true, and_true,
          control, if_false, if_true]
    · right
      refine ⟨?_, ?_, not34, not92⟩
      · simp only [quotePoint, not8, not9, not10, not12, not13, not34, not92, control, if_false]
      · simp only [received, not8, not12, not13, not9, not10, ne_eq, not_false_eq_true, and_true,
          control, if_false]

/-- The reader takes a quoted code point for what it receives. -/
theorem readString_quotePoint (c : CodePoint) (rest : ByteString) :
    readString (quotePoint c ++ rest) = (readString rest).map (received c ++ ·) := by
  rcases quotePoint_cases c with ⟨n, sent, got, -⟩ | ⟨sent, got, -⟩ | ⟨sent, got, not34, not92⟩
  · rw [sent, got]
    exact readString_escape n rest
  · -- The letter behind the backslash loses its meaning and the digits are kept.
    have letter : (unicodeEscape c).tail = byte 'u' :: (unicodeEscape c).tail.tail := rfl
    have shape : unicodeEscape c = backslash :: byte 'u' :: (unicodeEscape c).tail.tail := rfl
    have clean := unicodeEscape_tail_clean c
    rw [letter, List.mem_cons, not_or, List.mem_cons, not_or] at clean
    rw [sent, got, shape, List.cons_append, List.cons_append, readString_escape,
      readString_append clean.1.2 clean.2.2, Option.map_map]
    rfl
  · have clean := utf8_clean not34 not92
    rw [sent, got]
    exact readString_append clean.1 clean.2 rest

/-- The reader takes a quoted string for what it receives. -/
theorem readString_flatMap (cs : List CodePoint) (rest : ByteString) :
    readString (cs.flatMap quotePoint ++ quote :: rest) = some (cs.flatMap received) := by
  induction cs with
  | nil => exact readString_quote rest
  | cons c cs ih =>
      rw [List.flatMap_cons, List.append_assoc, readString_quotePoint, ih]
      rfl

theorem length_utf8_le (c : CodePoint) : (utf8 c).length ≤ 4 := by
  rw [utf8]
  split_ifs <;> simp

theorem length_utf8Replacing_le_four (c : CodePoint) : (utf8Replacing c).length ≤ 4 := by
  rw [utf8Replacing]
  split
  · exact length_utf8_le _
  · exact length_utf8_le c

/-- What does not survive is received as another byte or as five of them. -/
theorem received_cases (c : CodePoint) :
    (Survives c ∧ received c = utf8Replacing c) ∨
      (¬ Survives c ∧ received c ≠ utf8Replacing c ∧
        (utf8Replacing c).length ≤ (received c).length) := by
  by_cases single : c.val = 8 ∨ c.val = 12 ∨ c.val = 13
  · right
    rcases single with value | value | value
    · obtain rfl : c = 8 := Fin.ext value
      exact ⟨by decide, by decide, by decide⟩
    · obtain rfl : c = 12 := Fin.ext value
      exact ⟨by decide, by decide, by decide⟩
    · obtain rfl : c = 13 := Fin.ext value
      exact ⟨by decide, by decide, by decide⟩
  · simp only [not_or] at single
    obtain ⟨not8, not12, not13⟩ := single
    by_cases control : (c.val < 0x20 ∧ c.val ≠ 9 ∧ c.val ≠ 10) ∨ IsSurrogate c
    · right
      have got : received c = (unicodeEscape c).tail := by
        simp only [received, not8, not12, not13, if_false, if_pos control]
      have five : (received c).length = 5 := by
        rw [got]
        rfl
      have four := length_utf8Replacing_le_four c
      refine ⟨?_, ?_, by omega⟩
      · rintro ⟨printable, notSurrogate⟩
        rcases control with ⟨small, not9, not10⟩ | surrogate
        · omega
        · exact notSurrogate surrogate
      · intro same
        rw [same] at five
        omega
    · left
      simp only [not_or] at control
      have got : received c = utf8 c := by
        simp only [received, not8, not12, not13, if_false, control, or_self]
      refine ⟨⟨by omega, control.2⟩, ?_⟩
      rw [got, utf8Replacing, if_neg control.2]

/-- Two ways to map a list to segments, one of them never shorter, agree on the
list only when they agree on each element. -/
theorem flatMap_eq_flatMap_iff {α β : Type} {f g : α → List β}
    (le : ∀ x, (g x).length ≤ (f x).length) (l : List α) :
    l.flatMap f = l.flatMap g ↔ ∀ x ∈ l, f x = g x := by
  have total : ∀ l : List α, (l.flatMap g).length ≤ (l.flatMap f).length := by
    intro l
    induction l with
    | nil => exact le_rfl
    | cons x l ih =>
        simp only [List.flatMap_cons, List.length_append]
        exact Nat.add_le_add (le x) ih
  induction l with
  | nil => simp
  | cons x l ih =>
      rw [List.flatMap_cons, List.flatMap_cons, List.forall_mem_cons]
      constructor
      · intro same
        have lengths := congrArg List.length same
        simp only [List.length_append] at lengths
        have first := le x
        have rest := total l
        obtain ⟨head, tail⟩ := List.append_inj same (by omega)
        exact ⟨head, ih.mp tail⟩
      · rintro ⟨head, tail⟩
        rw [head, ih.mpr tail]

/-- The server receives the UTF-8 form of the text exactly when every code
point of it survives. -/
theorem flatMap_received_eq_iff (text : JsString) :
    (codePoints text).flatMap received = toUtf8 text ↔ ∀ c ∈ codePoints text, Survives c := by
  have le : ∀ c, (utf8Replacing c).length ≤ (received c).length := by
    intro c
    rcases received_cases c with ⟨-, same⟩ | ⟨-, -, le⟩
    · exact (congrArg List.length same).ge
    · exact le
  have survives : ∀ c, received c = utf8Replacing c ↔ Survives c := by
    intro c
    rcases received_cases c with ⟨survives, same⟩ | ⟨lost, different, -⟩
    · exact iff_of_true same survives
    · exact iff_of_false different lost
  rw [toUtf8, flatMap_eq_flatMap_iff le]
  simp only [survives]

/-! ## Searching through a string -/

/-- A character of a key, which stands for itself in a body. -/
def IsKeyChar (char : Char) : Prop :=
  93 ≤ char.toNat ∧ char.toNat < 0x80

instance (char : Char) : Decidable (IsKeyChar char) :=
  inferInstanceAs (Decidable (_ ∧ _))

/-- A key that stands for itself in a body. -/
def IsKey (word : List Char) : Prop :=
  ∀ char ∈ word, IsKeyChar char

instance (word : List Char) : Decidable (IsKey word) :=
  List.decidableBAll IsKeyChar word

theorem byte_val_of_isKeyChar {char : Char} (plain : IsKeyChar char) :
    (byte char).val = char.toNat :=
  Nat.mod_eq_of_lt (plain.2.trans (by decide))

theorem point_val_of_isKeyChar {char : Char} (plain : IsKeyChar char) :
    (point char).val = char.toNat :=
  Nat.mod_eq_of_lt (plain.2.trans (by decide))

theorem ascii_clean {word : List Char} (plain : IsKey word) :
    backslash ∉ ascii word ∧ quote ∉ ascii word := by
  have large : ∀ b ∈ ascii word, 93 ≤ b.val := by
    intro b member
    obtain ⟨char, charMem, rfl⟩ := List.mem_map.mp member
    rw [byte_val_of_isKeyChar (plain char charMem)]
    exact (plain char charMem).1
  exact ⟨fun member => absurd (large _ member) (by decide),
    fun member => absurd (large _ member) (by decide)⟩

theorem quotePoint_point {char : Char} (plain : IsKeyChar char) :
    quotePoint (point char) = [byte char] := by
  have value := point_val_of_isKeyChar plain
  have bounds := plain
  simp only [IsKeyChar] at bounds
  have plainPoint : ¬ (char.toNat < 0x20 ∨ IsSurrogate (point char)) := by
    simp only [IsSurrogate, value]
    omega
  have sent : quotePoint (point char) = utf8 (point char) := by
    simp only [quotePoint, value, if_neg plainPoint]
    split_ifs <;> first | rfl | omega
  rw [sent, utf8_of_lt (by rw [value]; exact bounds.2), value]
  rfl

theorem quotePoint_append_eq_iff {char : Char} (plain : IsKeyChar char) (c : CodePoint)
    (rest more : ByteString) :
    quotePoint c ++ rest = byte char :: more ↔ c = point char ∧ rest = more := by
  have charVal := byte_val_of_isKeyChar plain
  have pointVal := point_val_of_isKeyChar plain
  have notBackslash : backslash ≠ byte char := by
    intro same
    have value := congrArg Fin.val same
    rw [charVal] at value
    exact absurd (value ▸ plain.1) (by decide)
  constructor
  · intro same
    rcases quotePoint_cases c with ⟨n, sent, -⟩ | ⟨sent, -⟩ | ⟨sent, -⟩
    · rw [sent] at same
      exact absurd (List.cons.inj same).1 notBackslash
    · rw [sent] at same
      exact absurd (List.cons.inj same).1 notBackslash
    · rw [sent] at same
      rcases Nat.lt_or_ge c.val 0x80 with small | large
      · rw [utf8_of_lt small] at same
        obtain ⟨first, others⟩ := List.cons.inj same
        have value : c.val % 256 = (byte char).val := congrArg Fin.val first
        refine ⟨Fin.ext ?_, others⟩
        rw [pointVal, ← charVal, ← value]
        exact (Nat.mod_eq_of_lt (by omega)).symm
      · obtain ⟨b, tail, split⟩ := List.exists_cons_of_ne_nil (utf8_ne_nil c)
        have beyond : 0x80 ≤ b.val :=
          le_of_mem_utf8 large (by rw [split]; exact List.mem_cons_self)
        rw [split] at same
        have value : b.val = char.toNat := by rw [(List.cons.inj same).1, charVal]
        have bound := plain.2
        omega
  · rintro ⟨rfl, rfl⟩
    rw [quotePoint_point plain]
    rfl

/-- Only the key itself is quoted to the key. -/
theorem flatMap_quotePoint_eq_iff {word : List Char} (plain : IsKey word)
    (cs : List CodePoint) : cs.flatMap quotePoint = ascii word ↔ cs = points word := by
  induction word generalizing cs with
  | nil =>
      cases cs with
      | nil => exact iff_of_true rfl rfl
      | cons c cs =>
          refine iff_of_false ?_ (List.cons_ne_nil c cs)
          rcases quotePoint_cases c with ⟨n, sent, -⟩ | ⟨sent, -⟩ | ⟨sent, -⟩
          · simp [sent, ascii]
          · simp [sent, ascii, unicodeEscape]
          · simp [sent, ascii, utf8_ne_nil]
  | cons char word ih =>
      rw [IsKey, List.forall_mem_cons] at plain
      cases cs with
      | nil => simp [ascii, points]
      | cons c cs =>
          rw [List.flatMap_cons]
          refine (quotePoint_append_eq_iff plain.1 c _ (ascii word)).trans ?_
          rw [ih plain.2]
          exact List.cons_eq_cons.symm

theorem quotePoint_clean {c : CodePoint} (other : c.val ≠ 34) : quote ∉ quotePoint c := by
  rcases quotePoint_cases c with ⟨n, sent, -, isQuote⟩ | ⟨sent, -⟩ | ⟨sent, -, not34, not92⟩
  · rw [sent, List.mem_cons, List.mem_singleton, not_or]
    exact ⟨by decide, fun same => other (isQuote.mp same.symm)⟩
  · have shape : unicodeEscape c = backslash :: (unicodeEscape c).tail := rfl
    rw [sent, shape, List.mem_cons, not_or]
    exact ⟨by decide, (unicodeEscape_tail_clean c).2⟩
  · rw [sent]
    exact (utf8_clean not34 not92).2

theorem flatMap_quotePoint_clean {cs : List CodePoint} (absent : point '"' ∉ cs) :
    quote ∉ cs.flatMap quotePoint := by
  intro member
  obtain ⟨c, cMem, inside⟩ := List.mem_flatMap.mp member
  refine quotePoint_clean (fun value => absent ?_) inside
  obtain rfl : c = point '"' := Fin.ext value
  exact cMem

/-- A string whose quoted form ends where a quoted key would end. -/
def EndsAsKey (word : List Char) (cs : List CodePoint) : Prop :=
  cs = points word ∨ points ('"' :: word) <:+ cs

instance (word : List Char) (cs : List CodePoint) : Decidable (EndsAsKey word cs) :=
  inferInstanceAs (Decidable (_ ∨ _))

theorem suffix_append_cons_iff {α : Type} {q : α} {word a b : List α} (absent : q ∉ word) :
    q :: word <:+ a ++ q :: b ↔ b = word ∨ q :: word <:+ b := by
  constructor
  · rintro ⟨before, split⟩
    rcases List.append_eq_append_iff.mp split with ⟨c, -, rest⟩ | ⟨c, -, rest⟩
    · cases c with
      | nil => exact Or.inl (List.cons.inj rest).2.symm
      | cons first c =>
          have inside : q ∈ word := by
            rw [(List.cons.inj rest).2]
            exact List.mem_append_right _ List.mem_cons_self
          exact absurd inside absent
    · cases c with
      | nil => exact Or.inl (List.cons.inj rest).2
      | cons first c => exact Or.inr ⟨c, (List.cons.inj rest).2.symm⟩
  · rintro (rfl | suffix)
    · exact List.suffix_append a (q :: b)
    · exact suffix.trans ((List.suffix_cons q b).trans (List.suffix_append a (q :: b)))

/-- The search for a key passes over a string, unless the string ends as the
key does. -/
theorem afterFirst_string {word : List Char} (plain : IsKey word)
    (cs : List CodePoint) (rest : ByteString) :
    afterFirst (quoted (ascii word)) (quote :: (cs.flatMap quotePoint ++ quote :: rest)) =
      if EndsAsKey word cs then some rest
      else afterFirst (quoted (ascii word)) (quote :: rest) := by
  have clean := ascii_clean plain
  have quoteAbsent : point '"' ∉ points word := by
    intro member
    obtain ⟨char, charMem, same⟩ := List.mem_map.mp member
    have value := congrArg Fin.val same
    rw [point_val_of_isKeyChar (plain char charMem)] at value
    exact absurd (value ▸ (plain char charMem).1) (by decide)
  -- Induction on the quotes of the string: each is escaped, so the piece before it ends in a
  -- backslash and is no key.
  induction lengthEq : cs.length using Nat.strong_induction_on generalizing cs with
  | _ n ih =>
      by_cases quotes : point '"' ∈ cs
      · obtain ⟨a, b, rfl, absent⟩ := List.eq_append_cons_of_mem quotes
        have shape : (a ++ point '"' :: b).flatMap quotePoint ++ quote :: rest =
            (a.flatMap quotePoint ++ [backslash]) ++
              quote :: (b.flatMap quotePoint ++ quote :: rest) := by
          have escaped : quotePoint (point '"') = [backslash, quote] := by decide
          simp [escaped]
        have pieceClean : quote ∉ a.flatMap quotePoint ++ [backslash] := by
          rw [List.mem_append, not_or, List.mem_singleton]
          exact ⟨flatMap_quotePoint_clean absent, by decide⟩
        have notKey : a.flatMap quotePoint ++ [backslash] ≠ ascii word := by
          intro same
          exact clean.1 (same ▸ List.mem_append_right _ (List.mem_singleton_self backslash))
        have shorter : b.length < n := by
          rw [← lengthEq, List.length_append, List.length_cons]
          omega
        have ends : EndsAsKey word (a ++ point '"' :: b) ↔ EndsAsKey word b := by
          rw [EndsAsKey, EndsAsKey]
          have different : a ++ point '"' :: b ≠ points word := by
            intro same
            exact quoteAbsent (same ▸ List.mem_append_right _ List.mem_cons_self)
          rw [or_iff_right different]
          exact suffix_append_cons_iff quoteAbsent
        rw [shape, afterFirst_chunk clean.2 pieceClean, if_neg notKey, ih b.length shorter b rfl]
        simp only [ends]
      · have ends : EndsAsKey word cs ↔ cs.flatMap quotePoint = ascii word := by
          rw [flatMap_quotePoint_eq_iff plain]
          refine or_iff_left ?_
          rintro ⟨before, split⟩
          apply quotes
          rw [← split]
          exact List.mem_append_right _ List.mem_cons_self
        rw [afterFirst_chunk clean.2 (flatMap_quotePoint_clean quotes)]
        simp only [ends]

end DoomDraft.Server
