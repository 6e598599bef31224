import DoomDraft.Browser.Editor
import DoomDraft.Browser.Wire
import DoomDraft.Foundation.Transition
import DoomDraft.Foundation.Utf16

/-!
# The text of the browser and the text of the server

The browser applies an operation to a string of UTF-16 code units, and the server
applies it to the UTF-8 form of the string, with the same position and length.
Where the text before the position is not ASCII, the server cuts the text at an
earlier place than the browser.
-/

namespace DoomDraft.Browser

open Document

/-- The text of a document in the browser and on the server. -/
structure Copies where
  browser : JsString
  server : ByteString

/-- The part of the encoded text before the position that the server takes to be
behind it. -/
def overhang (text : JsString) (pos : Nat) : ByteString :=
  (toUtf8 (text.take pos)).drop pos

/-- The browser and the server mean the same by the operation.  An insertion is
of a well-formed text at a place that is not within a surrogate pair, and it makes
no difference whether it is before or behind the overhang; a deletion is of ASCII,
and it makes no difference whether it starts before or behind the overhang. -/
def Aligned (text : JsString) : DocOp CodeUnit → Prop
  | .insert pos inserted => inserted = [] ∨ WellPaired inserted ∧
      ¬ Joined (text.take pos) (text.drop pos) ∧
      toUtf8 inserted ++ overhang text pos = overhang text pos ++ toUtf8 inserted
  | .delete pos len => (∀ u ∈ (text.drop pos).take len, u.val < 0x80) ∧
      (overhang text pos ++ toUtf8 ((text.drop pos).take len)).drop len = overhang text pos

instance (text : JsString) : ∀ op, Decidable (Aligned text op)
  | .insert _ _ => inferInstanceAs (Decidable (_ ∨ _ ∧ _ ∧ _))
  | .delete pos len =>
      have := List.decidableBAll (fun u : CodeUnit => u.val < 0x80) ((text.drop pos).take len)
      inferInstanceAs (Decidable (_ ∧ _))

namespace Copies

/-- A text that the browser and the server share. -/
def ofText (text : JsString) : Copies where
  browser := text
  server := toUtf8 text

/-- `applyOp` in the browser and `apply_op` on the server. -/
def apply (w : Copies) (op : DocOp CodeUnit) : Copies where
  browser := applyOp w.browser op
  server := applyOp w.server (stored op)

/-- A committed operation, which is in bounds for the text of the browser. -/
def step (w : Copies) (op : DocOp CodeUnit) : Option Copies :=
  if op.InBounds w.browser.length then some (w.apply op) else none

/-- Apply committed operations in order. -/
def perform (w : Copies) (ops : List (DocOp CodeUnit)) : Option Copies :=
  Transition.perform step w ops

/-- The server has the UTF-8 form of the text of the browser. -/
def Agree (w : Copies) : Prop :=
  WellPaired w.browser ∧ w.server = toUtf8 w.browser

end Copies

/-! ## Edits of an encoded text -/

section Lists

universe u

variable {α : Type u} {before : List α} {pos : Nat}

theorem exists_cut (within : pos ≤ before.length) :
    ∃ front overhang, before = front ++ overhang ∧ pos = front.length := by
  refine ⟨before.take pos, before.drop pos, (List.take_append_drop pos before).symm, ?_⟩
  rw [List.length_take, Nat.min_eq_left within]

/-- Inserting at a position within `before` instead of its end. -/
theorem insert_early_iff (within : pos ≤ before.length) (inserted after : List α) :
    (before ++ after).take pos ++ inserted ++ (before ++ after).drop pos =
        before ++ (inserted ++ after) ↔
      inserted ++ before.drop pos = before.drop pos ++ inserted := by
  obtain ⟨front, rest, rfl, rfl⟩ := exists_cut within
  simp only [List.append_assoc, List.take_left, List.drop_left, List.append_cancel_left_eq]
  rw [← List.append_assoc, ← List.append_assoc, List.append_cancel_right_eq]

/-- Deleting from a position within `before` instead of its end. -/
theorem delete_early_iff (within : pos ≤ before.length) (deleted after : List α) :
    (before ++ (deleted ++ after)).take pos ++
        (before ++ (deleted ++ after)).drop (pos + deleted.length) = before ++ after ↔
      (before.drop pos ++ deleted).drop deleted.length = before.drop pos := by
  obtain ⟨front, rest, rfl, rfl⟩ := exists_cut within
  have behind : deleted.length ≤ (rest ++ deleted).length := by simp
  rw [← List.drop_drop, List.append_assoc, List.take_left, List.drop_left, List.drop_left,
    ← List.append_assoc rest, List.drop_append_of_le_length behind, List.append_assoc front,
    List.append_cancel_left_eq, List.append_cancel_right_eq]

end Lists

/-! ## One operation -/

section Cut

variable {before after : JsString}

/-- Inserting a text that is not empty. -/
theorem insert_agrees_iff (unicode : WellPaired (before ++ after)) {inserted : JsString}
    (someUnit : inserted ≠ []) :
    (WellPaired (before ++ (inserted ++ after)) ∧
        (toUtf8 (before ++ after)).take before.length ++ toUtf8 inserted ++
          (toUtf8 (before ++ after)).drop before.length =
            toUtf8 (before ++ (inserted ++ after))) ↔
      WellPaired inserted ∧ ¬ Joined before after ∧
        toUtf8 inserted ++ (toUtf8 before).drop before.length =
          (toUtf8 before).drop before.length ++ toUtf8 inserted := by
  -- a well-formed text does not pair with what is before it
  have apartFirst : WellPaired inserted → ¬ Joined before (inserted ++ after) := by
    rintro wellPaired ⟨-, v, head, trailing⟩
    rw [List.head?_append_of_ne_nil _ someUnit] at head
    exact wellPaired.not_isTrailing_of_head? head trailing
  constructor
  · rintro ⟨formed, same⟩
    have insertedFormed : WellPaired inserted := by
      -- lone surrogates would take more bytes on the server
      have lengths := congrArg List.length same
      rw [(wellPaired_iff_length _).mp formed, width_append, width_append, List.length_append,
        List.length_append, List.length_take, List.length_drop, unicode.length_toUtf8_append]
        at lengths
      rw [wellPaired_iff_length]
      omega
    obtain ⟨beforeFormed, -, encoded⟩ := formed.cut (apartFirst insertedFormed)
    have apart : ¬ Joined before after := beforeFormed.not_joined_left
    rw [encoded, toUtf8_append apart, toUtf8_append insertedFormed.not_joined_left,
      insert_early_iff (length_le_length_toUtf8 before)] at same
    exact ⟨insertedFormed, apart, same⟩
  · rintro ⟨insertedFormed, apart, commutes⟩
    obtain ⟨beforeFormed, afterFormed, encoded⟩ := unicode.cut apart
    have apartLast : ¬ Joined inserted after := insertedFormed.not_joined_left
    refine ⟨?_, ?_⟩
    · rw [wellPaired_append_iff (apartFirst insertedFormed), wellPaired_append_iff apartLast]
      exact ⟨beforeFormed, insertedFormed, afterFormed⟩
    · rw [encoded, toUtf8_append (apartFirst insertedFormed), toUtf8_append apartLast,
        insert_early_iff (length_le_length_toUtf8 before)]
      exact commutes

/-- Deleting a part that is not empty. -/
theorem delete_agrees_iff {deleted : JsString} (unicode : WellPaired (before ++ (deleted ++ after)))
    (someUnit : deleted ≠ []) :
    (WellPaired (before ++ after) ∧
        (toUtf8 (before ++ (deleted ++ after))).take before.length ++
          (toUtf8 (before ++ (deleted ++ after))).drop (before.length + deleted.length) =
            toUtf8 (before ++ after)) ↔
      (∀ u ∈ deleted, u.val < 0x80) ∧
        ((toUtf8 before).drop before.length ++ toUtf8 deleted).drop deleted.length =
          (toUtf8 before).drop before.length := by
  have wide : (toUtf8 (before ++ (deleted ++ after))).length =
      width before + (width deleted + width after) := by
    rw [unicode.length_toUtf8_append, width_append]
  have beforeWide := length_le_width before
  have deletedWide := length_le_width deleted
  -- the parts of a text around ASCII
  have parts : (∀ u ∈ deleted, u.val < 0x80) →
      WellPaired before ∧ WellPaired after ∧ (toUtf8 deleted).length = deleted.length ∧
        toUtf8 (before ++ (deleted ++ after)) =
          toUtf8 before ++ (toUtf8 deleted ++ toUtf8 after) := by
    intro ascii
    have apartFirst := (not_joined_of_ascii someUnit ascii before after).1
    have apartLast := (not_joined_of_ascii someUnit ascii [] after).2
    rw [List.nil_append] at apartLast
    obtain ⟨beforeFormed, restFormed, encoded⟩ := unicode.cut apartFirst
    obtain ⟨deletedFormed, afterFormed, encodedRest⟩ := restFormed.cut apartLast
    refine ⟨beforeFormed, afterFormed, ?_, by rw [encoded, encodedRest]⟩
    rw [(wellPaired_iff_length deleted).mp deletedFormed, (width_eq_length_iff deleted).mpr ascii]
  constructor
  · rintro ⟨formed, same⟩
    have ascii : ∀ u ∈ deleted, u.val < 0x80 := by
      -- the server deletes as many bytes as the browser deletes units
      have lengths := congrArg List.length same
      rw [formed.length_toUtf8_append, List.length_append, List.length_take, List.length_drop,
        wide] at lengths
      rw [← width_eq_length_iff]
      omega
    obtain ⟨beforeFormed, afterFormed, bytes, encoded⟩ := parts ascii
    rw [encoded, toUtf8_append beforeFormed.not_joined_left, ← bytes,
      delete_early_iff (length_le_length_toUtf8 before), bytes] at same
    exact ⟨ascii, same⟩
  · rintro ⟨ascii, shifted⟩
    obtain ⟨beforeFormed, afterFormed, bytes, encoded⟩ := parts ascii
    have apart : ¬ Joined before after := beforeFormed.not_joined_left
    refine ⟨(wellPaired_append_iff apart).mpr ⟨beforeFormed, afterFormed⟩, ?_⟩
    rw [encoded, toUtf8_append apart, ← bytes,
      delete_early_iff (length_le_length_toUtf8 before), bytes]
    exact shifted

end Cut

namespace Copies

/-- Applying an operation to a text that the browser and the server share. -/
theorem agree_apply_iff {text : JsString} (unicode : WellPaired text) {op : DocOp CodeUnit}
    (inBounds : op.InBounds text.length) :
    ((ofText text).apply op).Agree ↔ Aligned text op := by
  cases op with
  | insert pos inserted =>
      have split := List.take_append_drop pos text
      have units : (text.take pos).length = pos := by
        rw [List.length_take, Nat.min_eq_left inBounds]
      simp only [Agree, apply, ofText, stored, applyOp_insert, Aligned, overhang]
      by_cases empty : inserted = []
      · subst empty
        simp [split, unicode, toUtf8, codePoints]
      · rw [← split] at unicode
        have agrees := insert_agrees_iff unicode empty
        rw [units, split] at agrees
        simpa [empty] using agrees
  | delete pos len =>
      have within : pos + len ≤ text.length := inBounds
      have split := List.take_append_drop pos text
      have splitRest := List.take_append_drop len (text.drop pos)
      have units : (text.take pos).length = pos := by
        rw [List.length_take]
        omega
      have deleted : ((text.drop pos).take len).length = len := by
        rw [List.length_take, List.length_drop]
        omega
      simp only [Agree, apply, ofText, stored, applyOp_delete, Aligned, overhang]
      by_cases nothing : len = 0
      · subst nothing
        simp [split, unicode, toUtf8, codePoints]
      · have someUnit : (text.drop pos).take len ≠ [] := by
          intro empty
          rw [empty] at deleted
          exact nothing deleted.symm
        have whole : text.take pos ++ ((text.drop pos).take len ++ (text.drop pos).drop len) =
            text := by
          rw [splitRest, split]
        rw [← whole] at unicode
        have agrees := delete_agrees_iff unicode someUnit
        rw [units, deleted, whole, List.drop_drop] at agrees
        exact agrees

theorem Agree.eq_ofText {w : Copies} (agree : w.Agree) : w = ofText w.browser := by
  have encoded := agree.2
  cases w with
  | mk browser server => exact congrArg (Copies.mk browser) encoded

/-- The texts of the browser and the server, for every well-formed text and every
operation in bounds, and for every sequence of committed operations: the server
has the UTF-8 form of the text of the browser after each operation exactly if each
operation is aligned with the text that it is applied to. -/
theorem replay_agreement_iff {text : JsString} (unicode : WellPaired text) :
    (∀ op : DocOp CodeUnit, op.InBounds text.length →
      (((ofText text).apply op).Agree ↔ Aligned text op)) ∧
    ∀ ops final, (ofText text).perform ops = some final →
      ((∀ t middle, (ofText text).perform (ops.take t) = some middle → middle.Agree) ↔
        Transition.Permitted Copies.step (fun w op => Aligned w.browser op) (ofText text) ops) := by
  refine ⟨fun op inBounds => agree_apply_iff unicode inBounds, fun ops final run => ?_⟩
  refine (Transition.permitted_iff_forall_take (P := Agree) (J := fun _ => True)
    (fun _ _ _ _ _ => trivial) ?_ trivial ⟨unicode, rfl⟩ run).symm
  intro w op next _ agree stepped
  simp only [step] at stepped
  split at stepped
  · rename_i inBounds
    obtain rfl := Option.some.inj stepped
    rw [agree.eq_ofText]
    exact agree_apply_iff agree.1 inBounds
  · contradiction

/-- `é`. -/
def accented : JsString := [0xE9]

/-- A letter before the accented one is inserted and deleted. -/
def editsBefore : List (DocOp CodeUnit) :=
  [.insert 0 (units ['x']), .delete 0 1]

theorem replay_agreement_iff_editsBefore :
    (((ofText accented).apply (.insert 0 (units ['x']))).Agree ↔
      Aligned accented (.insert 0 (units ['x']))) ∧
    ∃ final, (ofText accented).perform editsBefore = some final ∧ final.browser = accented ∧
      ∀ t middle, (ofText accented).perform (editsBefore.take t) = some middle → middle.Agree := by
  have facts : ((ofText accented).perform editsBefore).any (fun final =>
      final.browser = accented) = true := by
    decide +kernel
  obtain ⟨final, run, browser⟩ := (Option.any_eq_true _ _).mp facts
  have unicode : WellPaired accented := by decide +kernel
  obtain ⟨single, sequences⟩ := replay_agreement_iff unicode
  exact ⟨single _ (by decide), final, run, of_decide_eq_true browser,
    (sequences editsBefore final run).mpr (by decide +kernel)⟩

/-- A letter is typed behind `é`: the server puts it between the two bytes. -/
theorem letter_behind_accent_disagrees : ¬ ∀ oldText newText : JsString, WellPaired oldText →
    WellPaired newText → ∀ op ∈ computeDelta oldText newText, op.InBounds oldText.length →
      applyOp (toUtf8 oldText) (stored op) = toUtf8 (applyOp oldText op) := by
  intro always
  have same := always accented (accented ++ units ['x']) (by decide +kernel) (by decide +kernel)
    (.insert 1 (units ['x'])) (by decide +kernel) (by decide)
  exact absurd same (by decide +kernel)

end Copies

end DoomDraft.Browser
