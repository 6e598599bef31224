import Mathlib.Data.List.TakeDrop
import Mathlib.Data.Nat.Basic
import Mathlib.Order.Basic
import Mathlib.Tactic.Common

/-!
# Text operations

Insertions and deletions at a position of a text, as `doc_ops.cc` and
`editor.js` both have them: the two files define the same functions, one on
bytes and one on UTF-16 units, so the text is a list over an arbitrary
alphabet.
-/

namespace DoomDraft.Document

universe u

/-- `doc_op`. -/
inductive DocOp (α : Type u) where
  | insert (pos : Nat) (text : List α)
  | delete (pos len : Nat)
  deriving DecidableEq

variable {α : Type u}

/-- `apply_op`, with out-of-bounds positions and lengths clamped. -/
def applyOp (text : List α) : DocOp α → List α
  | .insert pos inserted =>
      if inserted.isEmpty then text
      else
        let pos := min pos text.length
        text.take pos ++ inserted ++ text.drop pos
  | .delete pos len =>
      if len = 0 then text
      else
        let pos := min pos text.length
        let len := min len (text.length - pos)
        text.take pos ++ text.drop (pos + len)

/-- Apply operations in order. -/
def applyAll (text : List α) (ops : List (DocOp α)) : List α :=
  ops.foldl applyOp text

/-- `transform`: `a` adjusted to a text on which `b` has been applied. -/
def transform : DocOp α → DocOp α → DocOp α
  | .insert pos text, .insert otherPos other =>
      if otherPos ≤ pos then .insert (pos + other.length) text else .insert pos text
  | .insert pos text, .delete otherPos otherLen =>
      if pos ≤ otherPos then .insert pos text
      else if otherPos + otherLen ≤ pos then .insert (pos - otherLen) text
      else .insert 0 []
  | .delete pos len, .insert otherPos other =>
      if pos + len ≤ otherPos then .delete pos len
      else if otherPos ≤ pos then .delete (pos + other.length) len
      else .delete pos (len + other.length)
  | .delete pos len, .delete otherPos otherLen =>
      if pos + len ≤ otherPos then .delete pos len
      else if otherPos + otherLen ≤ pos then .delete (pos - otherLen) len
      else if otherPos ≤ pos ∧ pos + len ≤ otherPos + otherLen then .delete 0 0
      else if pos ≤ otherPos ∧ otherPos + otherLen ≤ pos + len then .delete pos (len - otherLen)
      else if pos < otherPos then .delete pos (otherPos - pos)
      else .delete otherPos (pos + len - otherPos - otherLen)

/-- `transform_seq`. -/
def transformSeq (a : DocOp α) (committed : List (DocOp α)) : DocOp α :=
  committed.foldl transform a

/-- The operation stays within a text of `length` characters. -/
def DocOp.InBounds (length : Nat) : DocOp α → Prop
  | .insert pos _ => pos ≤ length
  | .delete pos len => pos + len ≤ length

instance (length : Nat) (op : DocOp α) : Decidable (op.InBounds length) :=
  match op with
  | .insert pos _ => inferInstanceAs (Decidable (pos ≤ length))
  | .delete pos len => inferInstanceAs (Decidable (pos + len ≤ length))

/-! ## Clamping disappears in `take` and `drop` -/

@[simp]
theorem applyOp_insert (text : List α) (pos : Nat) (inserted : List α) :
    applyOp text (.insert pos inserted) = text.take pos ++ inserted ++ text.drop pos := by
  simp only [applyOp]
  split
  · rename_i noText
    rw [List.isEmpty_iff.mp noText, List.append_nil, List.take_append_drop]
  · rcases Nat.le_total pos text.length with within | beyond
    · rw [Nat.min_eq_left within]
    · rw [Nat.min_eq_right beyond, List.take_length, List.drop_length,
        List.take_of_length_le beyond, List.drop_of_length_le beyond]

@[simp]
theorem applyOp_delete (text : List α) (pos len : Nat) :
    applyOp text (.delete pos len) = text.take pos ++ text.drop (pos + len) := by
  simp only [applyOp]
  split
  · rename_i nothing
    rw [nothing, Nat.add_zero, List.take_append_drop]
  · rcases Nat.le_total pos text.length with within | beyond
    · rw [Nat.min_eq_left within]
      rcases Nat.le_total len (text.length - pos) with short | long
      · rw [Nat.min_eq_left short]
      · rw [Nat.min_eq_right long, List.drop_of_length_le (by omega),
          List.drop_of_length_le (by omega)]
    · rw [Nat.min_eq_right beyond, List.take_length, List.drop_of_length_le (by omega),
        List.take_of_length_le beyond, List.drop_of_length_le (by omega)]

theorem applyAll_append (text : List α) (first second : List (DocOp α)) :
    applyAll text (first ++ second) = applyAll (applyAll text first) second :=
  List.foldl_append

end DoomDraft.Document
