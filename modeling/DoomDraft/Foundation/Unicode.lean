import DoomDraft.Foundation.Bytes

/-!
# Unicode

Strings of UTF-16 code units, their code points and the UTF-8 form of these.  A
surrogate that is not part of a pair is a code point of its own; it has no
UTF-8 form and is replaced by U+FFFD.
-/

namespace DoomDraft

/-- A UTF-16 code unit. -/
abbrev CodeUnit := Fin 0x10000

/-- A Unicode code point. -/
abbrev CodePoint := Fin 0x110000

/-- Code units are written as numerals. -/
instance unitLiteral : NeZero 0x10000 := inferInstance

/-- Code points are written as numerals. -/
instance pointLiteral : NeZero 0x110000 := inferInstance

/-- The code units of an ASCII literal, given by its characters. -/
def units (chars : List Char) : List CodeUnit :=
  chars.map fun char => Fin.ofNat 0x10000 char.toNat

/-- The code point of an ASCII character. -/
def point (char : Char) : CodePoint :=
  Fin.ofNat 0x110000 char.toNat

/-- The code points of an ASCII literal, given by its characters. -/
def points (chars : List Char) : List CodePoint :=
  chars.map point

/-- The unit starts a surrogate pair. -/
def IsLeading (u : CodeUnit) : Prop :=
  0xD800 ≤ u.val ∧ u.val < 0xDC00

/-- The unit ends a surrogate pair. -/
def IsTrailing (u : CodeUnit) : Prop :=
  0xDC00 ≤ u.val ∧ u.val < 0xE000

/-- The code point is a surrogate. -/
def IsSurrogate (c : CodePoint) : Prop :=
  0xD800 ≤ c.val ∧ c.val < 0xE000

instance (u : CodeUnit) : Decidable (IsLeading u) :=
  inferInstanceAs (Decidable (_ ∧ _))

instance (u : CodeUnit) : Decidable (IsTrailing u) :=
  inferInstanceAs (Decidable (_ ∧ _))

instance (c : CodePoint) : Decidable (IsSurrogate c) :=
  inferInstanceAs (Decidable (_ ∧ _))

/-- The code point of a surrogate pair. -/
def pairPoint (u v : CodeUnit) (leading : IsLeading u) (trailing : IsTrailing v) : CodePoint :=
  ⟨0x10000 + (u.val - 0xD800) * 0x400 + (v.val - 0xDC00), by
    simp only [IsLeading, IsTrailing] at leading trailing
    omega⟩

/-- Every code unit is a code point. -/
theorem unit_le_point : 0x10000 ≤ 0x110000 := by
  decide

/-- The code points of a string. -/
def codePoints : List CodeUnit → List CodePoint
  | [] => []
  | [u] => [u.castLE (by decide)]
  | u :: v :: rest =>
      if pair : IsLeading u ∧ IsTrailing v then pairPoint u v pair.1 pair.2 :: codePoints rest
      else u.castLE (by decide) :: codePoints (v :: rest)

/-- The UTF-8 form of a code point. -/
def utf8 (c : CodePoint) : ByteString :=
  if c.val < 0x80 then [Fin.ofNat 256 c.val]
  else if c.val < 0x800 then
    [Fin.ofNat 256 (0xC0 + c.val / 0x40), Fin.ofNat 256 (0x80 + c.val % 0x40)]
  else if c.val < 0x10000 then
    [Fin.ofNat 256 (0xE0 + c.val / 0x1000), Fin.ofNat 256 (0x80 + c.val / 0x40 % 0x40),
      Fin.ofNat 256 (0x80 + c.val % 0x40)]
  else
    [Fin.ofNat 256 (0xF0 + c.val / 0x40000), Fin.ofNat 256 (0x80 + c.val / 0x1000 % 0x40),
      Fin.ofNat 256 (0x80 + c.val / 0x40 % 0x40), Fin.ofNat 256 (0x80 + c.val % 0x40)]

/-- The UTF-8 form of a code point, with surrogates replaced. -/
def utf8Replacing (c : CodePoint) : ByteString :=
  if IsSurrogate c then utf8 0xFFFD else utf8 c

/-- The UTF-8 form of a string. -/
def toUtf8 (s : List CodeUnit) : ByteString :=
  (codePoints s).flatMap utf8Replacing

/-- Without surrogates the code units are the code points. -/
theorem codePoints_of_lt {s : List CodeUnit} (small : ∀ u ∈ s, u.val < 0xD800) :
    codePoints s = s.map (Fin.castLE (by decide)) := by
  induction s with
  | nil => rfl
  | cons u s ih =>
      rw [List.forall_mem_cons] at small
      cases s with
      | nil => rfl
      | cons v s =>
          have noPair : ¬ (IsLeading u ∧ IsTrailing v) := by
            rintro ⟨leading, -⟩
            exact absurd leading.1 (Nat.not_le.mpr small.1)
          rw [codePoints, dif_neg noPair, ih small.2]
          rfl

theorem utf8_ne_nil (c : CodePoint) : utf8 c ≠ [] := by
  rw [utf8]
  split_ifs <;> simp

theorem utf8_of_lt {c : CodePoint} (small : c.val < 0x80) : utf8 c = [Fin.ofNat 256 c.val] := by
  simp [utf8, small]

/-- The bytes of a code point beyond ASCII are beyond ASCII. -/
theorem le_of_mem_utf8 {c : CodePoint} (large : 0x80 ≤ c.val) {b : Byte} (member : b ∈ utf8 c) :
    0x80 ≤ b.val := by
  have bound := c.isLt
  rw [utf8, if_neg (Nat.not_lt.mpr large)] at member
  split_ifs at member
  all_goals
    simp only [List.mem_cons, List.not_mem_nil, or_false] at member
    rcases member with rfl | rfl | rfl | rfl
    all_goals
      simp only [Fin.ofNat]
      omega

end DoomDraft
