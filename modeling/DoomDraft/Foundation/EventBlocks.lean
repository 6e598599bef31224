import DoomDraft.Foundation.EventStream

/-!
# Event streams that end anywhere

A stream is written in blocks: some lines and the blank line that ends them.  A
connection may break after any byte, and then the reader has processed the
blocks that are complete and nothing of the one in which the stream ends.
-/

namespace DoomDraft.EventStream

/-- The lines of a block without the blank one behind them. -/
structure IsBlock (texts : List ByteString) : Prop where
  nonempty : ∀ text ∈ texts, text ≠ []
  unbroken : ∀ text ∈ texts, ∀ b ∈ text, b ≠ 10 ∧ b ≠ 13

/-- The bytes of some lines. -/
def lineBytes (texts : List ByteString) : ByteString :=
  texts.flatMap (· ++ [10])

/-- The bytes of a block. -/
def block (texts : List ByteString) : ByteString :=
  lineBytes texts ++ [10]

theorem lineBytes_cons (text : ByteString) (texts : List ByteString) :
    lineBytes (text :: texts) = text ++ 10 :: lineBytes texts := by
  simp [lineBytes]

theorem IsBlock.tail {text : ByteString} {texts : List ByteString}
    (isBlock : IsBlock (text :: texts)) : IsBlock texts where
  nonempty := fun other member => isBlock.nonempty other (List.mem_cons_of_mem text member)
  unbroken := fun other member => isBlock.unbroken other (List.mem_cons_of_mem text member)

/-! ## Lines -/

/-- A line that does not end is no line. -/
theorem lines_eq_nil {text : ByteString} (unbroken : ∀ b ∈ text, b ≠ 10 ∧ b ≠ 13)
    (pending : ByteString) : lines pending text = [] := by
  induction text generalizing pending with
  | nil => rw [lines]
  | cons c text ih =>
      rw [List.forall_mem_cons] at unbroken
      cases text with
      | nil => simp [lines, unbroken.1.1, unbroken.1.2]
      | cons d text =>
          rw [lines, if_neg unbroken.1.1, if_neg unbroken.1.2]
          exact ih unbroken.2 _

theorem lines_block_append {texts : List ByteString} (isBlock : IsBlock texts)
    (rest : ByteString) : lines [] (block texts ++ rest) = texts ++ [] :: lines [] rest := by
  induction texts with
  | nil => exact @lines_append [] (by simp) [] rest
  | cons text texts ih =>
      have first := lines_append (isBlock.unbroken text List.mem_cons_self) []
        (block texts ++ rest)
      rw [ih isBlock.tail] at first
      simpa [block, lineBytes_cons] using first

/-- What is cut off the end of some lines leaves a prefix of them. -/
theorem lines_prefix {texts : List ByteString} (isBlock : IsBlock texts) {bytes : ByteString}
    (cut : bytes <+: lineBytes texts) : lines [] bytes <+: texts := by
  induction texts generalizing bytes with
  | nil =>
      rw [List.prefix_nil.mp cut]
      exact List.nil_prefix
  | cons text texts ih =>
      have unbroken := isBlock.unbroken text List.mem_cons_self
      rw [lineBytes_cons] at cut
      rcases List.prefix_or_prefix_of_prefix cut (List.prefix_append text _) with
        inside | ⟨more, rfl⟩
      · rw [lines_eq_nil fun b member => unbroken b (inside.subset member)]
        exact List.nil_prefix
      · have beyond := (List.prefix_append_right_inj text).mp cut
        cases more with
        | nil =>
            rw [List.append_nil, lines_eq_nil unbroken]
            exact List.nil_prefix
        | cons b more =>
            obtain ⟨rfl, behind⟩ := List.cons_prefix_cons.mp beyond
            rw [lines_append unbroken, List.nil_append]
            exact List.cons_prefix_cons.mpr ⟨rfl, ih isBlock.tail behind⟩

/-! ## Events -/

/-- Nothing is dispatched without a blank line. -/
theorem events_eq_nil {texts : List ByteString} (nonempty : ∀ text ∈ texts, text ≠ [])
    (reader : Reader) : reader.events texts = [] := by
  induction texts generalizing reader with
  | nil => rfl
  | cons text texts ih =>
      rw [List.forall_mem_cons] at nonempty
      have silent : (reader.line text).2 = none := by
        rw [Reader.line, if_neg nonempty.1]
        split <;> rfl
      rw [Reader.events, silent, ih nonempty.2]
      rfl

/-- What comes behind the same lines is all that two streams differ in. -/
theorem events_append_congr {second third : List ByteString}
    (same : ∀ reader : Reader, reader.events second = reader.events third)
    (first : List ByteString) (reader : Reader) :
    reader.events (first ++ second) = reader.events (first ++ third) := by
  induction first generalizing reader with
  | nil => exact same reader
  | cons text first ih => rw [List.cons_append, List.cons_append, Reader.events, Reader.events, ih]

/-- A stream of blocks that is cut after any byte dispatches the events of the
blocks that are complete. -/
theorem exists_events_take {blocks : List (List ByteString)}
    (areBlocks : ∀ texts ∈ blocks, IsBlock texts) (n : Nat) :
    ∃ k, ∀ reader : Reader, reader.events (lines [] ((blocks.flatMap block).take n)) =
      reader.events (lines [] ((blocks.take k).flatMap block)) := by
  induction blocks generalizing n with
  | nil => exact ⟨0, fun reader => by simp⟩
  | cons texts blocks ih =>
      rw [List.forall_mem_cons] at areBlocks
      rw [List.flatMap_cons]
      rcases Nat.lt_or_ge n (block texts).length with inside | beyond
      · have cut : (block texts ++ blocks.flatMap block).take n <+: lineBytes texts := by
          rw [List.take_append_of_le_length inside.le, block,
            List.take_append_of_le_length (by simp [block] at inside; omega)]
          exact List.take_prefix n _
        have someLines := lines_prefix areBlocks.1 cut
        refine ⟨0, fun reader => ?_⟩
        rw [events_eq_nil fun text member => areBlocks.1.nonempty text (someLines.subset member)]
        rfl
      · obtain ⟨k, same⟩ := ih areBlocks.2 (n - (block texts).length)
        refine ⟨k + 1, fun reader => ?_⟩
        rw [List.take_append, List.take_of_length_le beyond, List.take_succ_cons,
          List.flatMap_cons, lines_block_append areBlocks.1, lines_block_append areBlocks.1]
        exact events_append_congr (events_append_congr same [[]]) texts reader

end DoomDraft.EventStream
