import DoomDraft.Foundation.Bytes
import Mathlib.Algebra.Group.Int.Defs
import Mathlib.Data.List.Induction

/-!
# Decimal numerals

`std::to_string` of an unsigned number and the value of a run of digits.  The
readers of the program differ in how they treat overflow and what they accept
around the digits, so they are defined where they belong; what they share is
the maximal run of digits at the front of a string.
-/

namespace DoomDraft

/-- The size of the 64-bit unsigned types. -/
def uint64Size : Nat := 2 ^ 64

/-- Whether a byte is one of `0` to `9`. -/
def isDigit (b : Byte) : Bool :=
  48 ≤ b.val ∧ b.val ≤ 57

/-- The value of a digit. -/
def digitValue (b : Byte) : Nat :=
  b.val - 48

/-- The value of a run of digits. -/
def decimalValue (digits : ByteString) : Nat :=
  digits.foldl (fun value b => value * 10 + digitValue b) 0

/-- `std::to_string`. -/
def decimal (n : Nat) : ByteString :=
  ascii (Nat.toDigits 10 n)

theorem byte_val_of_isDigit {char : Char} (digit : char.isDigit = true) :
    (byte char).val = char.toNat := by
  have bounds : 48 ≤ char.toNat ∧ char.toNat ≤ 57 := Char.isDigit_iff_toNat.mp digit
  simp only [byte, Fin.ofNat]
  exact Nat.mod_eq_of_lt (by omega)

theorem isDigit_of_mem_decimal {n : Nat} {b : Byte} (member : b ∈ decimal n) :
    isDigit b = true := by
  obtain ⟨char, charMem, rfl⟩ := List.mem_map.mp member
  have digit := Nat.isDigit_of_mem_toDigits (by decide) (by decide) charMem
  have bounds := Char.isDigit_iff_toNat.mp digit
  rw [isDigit, byte_val_of_isDigit digit]
  exact decide_eq_true bounds

theorem decimal_ne_nil (n : Nat) : decimal n ≠ [] := by
  simp [decimal, ascii, Nat.toDigits_ne_nil]

theorem decimalValue_decimal (n : Nat) : decimalValue (decimal n) = n := by
  have values : ∀ (chars : List Char) (value : Nat), (∀ char ∈ chars, char.isDigit = true) →
      (ascii chars).foldl (fun value b => value * 10 + digitValue b) value =
        Nat.ofDigitChars 10 chars value := by
    intro chars
    induction chars with
    | nil => intro value _; rfl
    | cons char rest ih =>
        intro value digits
        have first := byte_val_of_isDigit (digits char List.mem_cons_self)
        rw [Nat.ofDigitChars_cons, ← ih _ fun other member =>
          digits other (List.mem_cons_of_mem _ member)]
        simp only [ascii, List.map_cons, List.foldl_cons, digitValue, first]
        rw [Nat.mul_comm]
        rfl
  rw [decimalValue, decimal, values _ _ fun char member =>
    Nat.isDigit_of_mem_toDigits (by decide) (by decide) member]
  exact Nat.ofDigitChars_toDigits (by decide) (by decide)

theorem decimal_injective : Function.Injective decimal := by
  intro m n same
  rw [← decimalValue_decimal m, same, decimalValue_decimal]

/-- A numeral of a positive number has no leading zero. -/
theorem head?_decimal_ne {n : Nat} (positive : 0 < n) :
    (decimal n).head? ≠ some (byte '0') := by
  induction n using Nat.strong_induction_on with
  | _ n ih =>
      rw [decimal, Nat.toDigits_eq_if (by decide)]
      split
      · rename_i small
        have digit : ∀ d < 10, 0 < d → (ascii [Nat.digitChar d]).head? ≠ some (byte '0') := by
          decide
        exact digit n small positive
      · rename_i large
        have shorter := ih (n / 10) (by omega) (by omega)
        have someDigit : (ascii (Nat.toDigits 10 (n / 10))).head?.isSome = true := by
          rw [List.isSome_head?]
          exact decimal_ne_nil (n / 10)
        rw [ascii, List.map_append, List.head?_append]
        exact (Option.or_of_isSome someDigit).symm ▸ shorter

/-- `std::to_string` of a signed number. -/
def decimalInt : Int → ByteString
  | .ofNat n => decimal n
  | .negSucc n => byte '-' :: decimal (n + 1)

/-! ## Leading digits -/

/-- A string that does not start with a digit. -/
def NoDigitFirst (rest : ByteString) : Prop :=
  ∀ b ∈ rest.head?, isDigit b = false

theorem takeWhile_decimal_append (n : Nat) {rest : ByteString} (stops : NoDigitFirst rest) :
    (decimal n ++ rest).takeWhile isDigit = decimal n := by
  rw [List.takeWhile_append_of_pos fun b => isDigit_of_mem_decimal]
  cases rest with
  | nil => simp
  | cons b rest => simp [stops b rfl]

theorem dropWhile_decimal_append (n : Nat) {rest : ByteString} (stops : NoDigitFirst rest) :
    (decimal n ++ rest).dropWhile isDigit = rest := by
  rw [List.dropWhile_append_of_pos fun b => isDigit_of_mem_decimal]
  cases rest with
  | nil => rfl
  | cons b rest => simp [stops b rfl]

/-- A 64-bit accumulator holds the value of the digits modulo its size. -/
theorem foldl_wrapping_eq (size : Nat) (digits : ByteString) :
    digits.foldl (fun value b => (value * 10 + digitValue b) % size) 0 =
      decimalValue digits % size := by
  induction digits using List.reverseRecOn with
  | nil => simp [decimalValue]
  | append_singleton digits b ih =>
      simp only [decimalValue, List.foldl_append, List.foldl_cons, List.foldl_nil] at ih ⊢
      rw [ih]
      simp [Nat.add_mod, Nat.mul_mod]

end DoomDraft
