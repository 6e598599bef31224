import Mathlib.Data.List.Basic

/-!
# Searching in lists

The position of the first occurrence of one list in another, as `std::string_view::find`
returns it, and what it is in a prefix of the searched list.
-/

namespace DoomDraft.Search

universe u

variable {α : Type u} [DecidableEq α]

/-- The position of the first occurrence of `needle`. -/
def find (needle : List α) : List α → Option Nat
  | [] => if needle = [] then some 0 else none
  | a :: text =>
      if needle.isPrefixOf (a :: text) then some 0 else (find needle text).map (· + 1)

/-- No occurrence starts in a chunk without the first element of the needle. -/
theorem find_append {c : α} {chunk : List α} (absent : c ∉ chunk) (needle rest : List α) :
    find (c :: needle) (chunk ++ rest) = (find (c :: needle) rest).map (· + chunk.length) := by
  induction chunk with
  | nil => simp
  | cons a chunk ih =>
      obtain ⟨different, later⟩ := not_or.mp (mt List.mem_cons.mpr absent)
      have here : ((c :: needle).isPrefixOf (a :: (chunk ++ rest))) = false := by
        simp [List.isPrefixOf, different]
      rw [List.cons_append, find, here, if_neg Bool.false_ne_true, ih later, Option.map_map]
      rfl

/-- The needle is found behind a chunk without its first element. -/
theorem find_append_needle {c : α} {chunk : List α} (absent : c ∉ chunk)
    (needle rest : List α) :
    find (c :: needle) (chunk ++ (c :: needle ++ rest)) = some chunk.length := by
  have first : (c :: needle).isPrefixOf (c :: (needle ++ rest)) = true := by
    simp [List.isPrefixOf_iff_prefix]
  rw [find_append absent, List.cons_append, find, if_pos first]
  simp

/-- An occurrence fits into the list. -/
theorem add_length_le_of_find {needle text : List α} {position : Nat}
    (found : find needle text = some position) : position + needle.length ≤ text.length := by
  induction text generalizing position with
  | nil =>
      rw [find] at found
      obtain ⟨rfl, same⟩ := Option.ite_none_right_eq_some.mp found
      cases same
      exact Nat.le_refl _
  | cons a text ih =>
      rw [find] at found
      split at found
      · rename_i first
        obtain rfl := Option.some.inj found
        rw [Nat.zero_add]
        exact (List.isPrefixOf_iff_prefix.mp first).length_le
      · obtain ⟨later, foundLater, rfl⟩ := Option.map_eq_some_iff.mp found
        have fits := ih foundLater
        rw [List.length_cons]
        omega

/-- What is found in a list is found in those of its prefixes that it fits into,
and nothing is found in the others. -/
theorem find_prefix {needle text more : List α} (nonempty : needle ≠ []) {position : Nat}
    (found : find needle (text ++ more) = some position) :
    find needle text = if position + needle.length ≤ text.length then some position else none := by
  have long : 0 < needle.length := List.length_pos_of_ne_nil nonempty
  induction text generalizing position with
  | nil =>
      rw [find, if_neg nonempty, if_neg (by simp only [List.length_nil]; omega)]
  | cons a text ih =>
      rw [List.cons_append, find] at found
      rw [find, List.length_cons]
      by_cases first : needle.isPrefixOf (a :: (text ++ more)) = true
      · rw [if_pos first] at found
        obtain rfl := Option.some.inj found
        have whole : needle <+: (a :: text) ++ more := List.isPrefixOf_iff_prefix.mp first
        by_cases fits : needle.length ≤ text.length + 1
        · have inside : needle.isPrefixOf (a :: text) = true :=
            List.isPrefixOf_iff_prefix.mpr
              (List.prefix_of_prefix_length_le whole (List.prefix_append _ _) fits)
          rw [if_pos inside, if_pos (by omega)]
        · have outside : ¬ needle.isPrefixOf (a :: text) = true := fun inside =>
            fits (List.isPrefixOf_iff_prefix.mp inside).length_le
          rw [if_neg outside, if_neg (by omega), Option.map_eq_none_iff]
          by_contra someBehind
          obtain ⟨later, behind⟩ := Option.ne_none_iff_exists'.mp someBehind
          have := add_length_le_of_find behind
          omega
      · rw [if_neg first] at found
        have outside : ¬ needle.isPrefixOf (a :: text) = true := fun inside =>
          first (List.isPrefixOf_iff_prefix.mpr
            ((List.isPrefixOf_iff_prefix.mp inside).trans (List.prefix_append _ more)))
        obtain ⟨later, foundLater, rfl⟩ := Option.map_eq_some_iff.mp found
        rw [if_neg outside, ih foundLater]
        by_cases fits : later + needle.length ≤ text.length
        · rw [if_pos fits, if_pos (by omega)]
          rfl
        · rw [if_neg fits, if_neg (by omega)]
          rfl

end DoomDraft.Search
