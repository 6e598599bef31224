import Mathlib.Algebra.GroupWithZero.Nat
import Mathlib.Data.List.Lex
import Mathlib.Order.Fin.Basic
import Mathlib.Tactic.Common

/-!
# Byte strings

A `std::string` is a sequence of bytes compared lexicographically as unsigned
values, so it is modelled as a list over `Fin 256`, whose list order is that
comparison.
-/

namespace DoomDraft

/-- One unsigned byte. -/
abbrev Byte := Fin 256

/-- Bytes are written as numerals. -/
instance byteLiteral : NeZero 256 := inferInstance

instance lawfulBEqByte : LawfulBEq Byte := inferInstance

/-- The contents of a `std::string`. -/
abbrev ByteString := List Byte

/-- The byte of an ASCII character. -/
def byte (char : Char) : Byte :=
  Fin.ofNat 256 char.toNat

/-- The bytes of an ASCII literal, given by its characters. -/
def ascii (chars : List Char) : ByteString :=
  chars.map byte

end DoomDraft
