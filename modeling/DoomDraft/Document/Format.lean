import DoomDraft.Document.State

/-!
# The documented format of an operation

An insertion is written `I <pos> <text>` and a deletion `D <pos> <len>`.  The
reader takes every string of this form for the operation that it denotes, and
some strings besides.
-/

namespace DoomDraft.Document

/-- A numeral of a 64-bit number. -/
def IsNumber (digits : ByteString) : Prop :=
  IsNumeral digits ∧ decimalValue digits < uint64Size

/-- The serialization format. -/
inductive Documented : ByteString → DocOp Byte → Prop
  | insert (pos text : ByteString) (number : IsNumber pos) :
      Documented (ascii ['I', ' '] ++ pos ++ ascii [' '] ++ text)
        (.insert (decimalValue pos) text)
  | delete (pos len : ByteString) (posNumber : IsNumber pos) (lenNumber : IsNumber len) :
      Documented (ascii ['D', ' '] ++ pos ++ ascii [' '] ++ len)
        (.delete (decimalValue pos) (decimalValue len))

/-- What the reader takes for an operation although it departs from the format:
the second byte is not a space, a number has more than 64 bits, no space follows
the position of an insertion, or something follows the length of a deletion. -/
inductive Loose : ByteString → Prop
  | insert (c : Byte) (pos rest : ByteString) (run : IsNumeral pos) (stops : NoDigitFirst rest)
      (departs : c ≠ byte ' ' ∨ uint64Size ≤ decimalValue pos ∨ rest.head? ≠ some (byte ' ')) :
      Loose (byte 'I' :: c :: (pos ++ rest))
  | delete (c : Byte) (pos len rest : ByteString) (posRun : IsNumeral pos) (lenRun : IsNumeral len)
      (stops : NoDigitFirst rest)
      (departs : c ≠ byte ' ' ∨ uint64Size ≤ decimalValue pos ∨ uint64Size ≤ decimalValue len ∨
        rest ≠ []) :
      Loose (byte 'D' :: c :: (pos ++ byte ' ' :: (len ++ rest)))

/-! ## Runs of digits -/

theorem IsNumeral.takeWhile_append {digits rest : ByteString} (run : IsNumeral digits)
    (stops : NoDigitFirst rest) : (digits ++ rest).takeWhile isDigit = digits := by
  rw [List.takeWhile_append_of_pos run.2]
  cases rest with
  | nil => simp
  | cons b rest => simp [stops b rfl]

theorem IsNumeral.dropWhile_append {digits rest : ByteString} (run : IsNumeral digits)
    (stops : NoDigitFirst rest) : (digits ++ rest).dropWhile isDigit = rest := by
  rw [List.dropWhile_append_of_pos run.2]
  cases rest with
  | nil => rfl
  | cons b rest => simp [stops b rfl]

/-- A string has one maximal run of digits at its front. -/
theorem IsNumeral.append_inj {digits more rest others : ByteString} (run : IsNumeral digits)
    (otherRun : IsNumeral more) (stops : NoDigitFirst rest) (otherStops : NoDigitFirst others)
    (same : digits ++ rest = more ++ others) : digits = more ∧ rest = others := by
  have runs := congrArg (List.takeWhile isDigit) same
  have rests := congrArg (List.dropWhile isDigit) same
  rw [run.takeWhile_append stops, otherRun.takeWhile_append otherStops] at runs
  rw [run.dropWhile_append stops, otherRun.dropWhile_append otherStops] at rests
  exact ⟨runs, rests⟩

theorem isNumeral_takeWhile {s : ByteString} (nonempty : s.takeWhile isDigit ≠ []) :
    IsNumeral (s.takeWhile isDigit) :=
  ⟨nonempty, fun _ member => List.mem_takeWhile_imp member⟩

theorem noDigitFirst_dropWhile (s : ByteString) : NoDigitFirst (s.dropWhile isDigit) := by
  intro b first
  have stopped := List.head?_dropWhile_not isDigit s
  rw [Option.mem_def] at first
  rw [first] at stopped
  simpa using stopped

/-- The rest of a string without the space at its front. -/
def skipSpace (rest : ByteString) : ByteString :=
  if rest.head? = some (byte ' ') then rest.tail else rest

/-- What `read_uint` makes of a run of digits. -/
theorem readUint_run {digits rest : ByteString} (run : IsNumeral digits)
    (stops : NoDigitFirst rest) :
    readUint (digits ++ rest) = some (decimalValue digits % uint64Size, skipSpace rest) := by
  simp only [readUint, run.takeWhile_append stops, run.dropWhile_append stops, run.1, if_false,
    foldl_wrapping_eq, skipSpace]

/-- `read_uint` reads a run of digits. -/
theorem exists_run_of_readUint {s rest : ByteString} {n : Nat}
    (read : readUint s = some (n, rest)) :
    ∃ digits others, s = digits ++ others ∧ IsNumeral digits ∧ NoDigitFirst others ∧
      n = decimalValue digits % uint64Size ∧ rest = skipSpace others := by
  have nonempty : s.takeWhile isDigit ≠ [] := by
    intro empty
    simp [readUint, empty] at read
  have run := isNumeral_takeWhile nonempty
  have stops := noDigitFirst_dropWhile s
  have again := readUint_run run stops
  rw [List.takeWhile_append_dropWhile, read] at again
  obtain ⟨value, others⟩ := Prod.mk.inj (Option.some.inj again)
  exact ⟨_, _, List.takeWhile_append_dropWhile.symm, run, stops, value, others⟩

theorem skipSpace_cons (rest : ByteString) : skipSpace (byte ' ' :: rest) = rest :=
  if_pos rfl

/-! ## What the reader accepts -/

theorem deserialize_insert (c : Byte) (s : ByteString) :
    deserialize (byte 'I' :: c :: s) = (readUint s).map fun (pos, text) => .insert pos text := by
  rw [deserialize, if_pos rfl]

theorem deserialize_delete (c : Byte) (s : ByteString) :
    deserialize (byte 'D' :: c :: s) =
      (readUint s).bind fun (pos, s) => (readUint s).map fun (len, _) => .delete pos len := by
  rw [deserialize, if_neg (by decide), if_pos rfl]

theorem deserialize_insert_run (c : Byte) {pos rest : ByteString} (run : IsNumeral pos)
    (stops : NoDigitFirst rest) :
    deserialize (byte 'I' :: c :: (pos ++ rest)) =
      some (.insert (decimalValue pos % uint64Size) (skipSpace rest)) := by
  rw [deserialize_insert, readUint_run run stops]
  rfl

theorem deserialize_delete_run (c : Byte) {pos len rest : ByteString} (posRun : IsNumeral pos)
    (lenRun : IsNumeral len) (stops : NoDigitFirst rest) :
    deserialize (byte 'D' :: c :: (pos ++ byte ' ' :: (len ++ rest))) =
      some (.delete (decimalValue pos % uint64Size) (decimalValue len % uint64Size)) := by
  rw [deserialize_delete, readUint_run posRun (noDigitFirst_space _), skipSpace_cons,
    Option.bind_some]
  dsimp only
  rw [readUint_run lenRun stops]
  rfl

/-- The strings that the reader accepts. -/
inductive Read : ByteString → DocOp Byte → Prop
  | insert (c : Byte) (pos rest : ByteString) (run : IsNumeral pos) (stops : NoDigitFirst rest) :
      Read (byte 'I' :: c :: (pos ++ rest))
        (.insert (decimalValue pos % uint64Size) (skipSpace rest))
  | delete (c : Byte) (pos len rest : ByteString) (posRun : IsNumeral pos) (lenRun : IsNumeral len)
      (stops : NoDigitFirst rest) :
      Read (byte 'D' :: c :: (pos ++ byte ' ' :: (len ++ rest)))
        (.delete (decimalValue pos % uint64Size) (decimalValue len % uint64Size))

/-- Between two runs of digits there is a space. -/
theorem exists_space_of_run {others digits rest : ByteString} (stops : NoDigitFirst others)
    (run : IsNumeral digits) (skipped : skipSpace others = digits ++ rest) :
    others = byte ' ' :: (digits ++ rest) := by
  rw [skipSpace] at skipped
  split at skipped
  · rename_i space
    obtain ⟨tail, rfl⟩ := List.head?_eq_some_iff.mp space
    exact congrArg (byte ' ' :: ·) skipped
  · obtain ⟨d, more, rfl⟩ := List.exists_cons_of_ne_nil run.1
    have first := stops d (by rw [skipped]; rfl)
    rw [run.2 d List.mem_cons_self] at first
    contradiction

theorem deserialize_eq_some_iff {s : ByteString} {op : DocOp Byte} :
    deserialize s = some op ↔ Read s op := by
  constructor
  · intro accepted
    match s with
    | [] => contradiction
    | [_] => contradiction
    | type :: c :: s =>
        by_cases isInsert : type = byte 'I'
        · subst isInsert
          rw [deserialize_insert] at accepted
          obtain ⟨⟨pos, text⟩, read, rfl⟩ := Option.map_eq_some_iff.mp accepted
          obtain ⟨digits, rest, rfl, run, stops, rfl, rfl⟩ := exists_run_of_readUint read
          exact .insert c digits rest run stops
        · by_cases isDelete : type = byte 'D'
          · subst isDelete
            rw [deserialize_delete] at accepted
            obtain ⟨⟨pos, text⟩, read, accepted⟩ := Option.bind_eq_some_iff.mp accepted
            obtain ⟨⟨len, text'⟩, lenRead, rfl⟩ := Option.map_eq_some_iff.mp accepted
            obtain ⟨digits, others, rfl, run, stops, rfl, rfl⟩ := exists_run_of_readUint read
            obtain ⟨lenDigits, rest, split, lenRun, lenStops, rfl, -⟩ :=
              exists_run_of_readUint lenRead
            rw [exists_space_of_run stops lenRun split]
            exact .delete c digits lenDigits rest run lenRun lenStops
          · rw [deserialize, if_neg isInsert, if_neg isDelete] at accepted
            contradiction
  · rintro (⟨c, pos, rest, run, stops⟩ | ⟨c, pos, len, rest, posRun, lenRun, stops⟩)
    · exact deserialize_insert_run c run stops
    · exact deserialize_delete_run c posRun lenRun stops

/-! ## The format and the reader -/

/-- What is written in the format is read as the operation that it denotes. -/
theorem Documented.read {s : ByteString} {op : DocOp Byte} (documented : Documented s op) :
    Read s op := by
  cases documented with
  | insert pos text number =>
      have accepted := Read.insert (byte ' ') pos (byte ' ' :: text) number.1
        (noDigitFirst_space text)
      rw [Nat.mod_eq_of_lt number.2, skipSpace_cons] at accepted
      simpa [ascii] using accepted
  | delete pos len posNumber lenNumber =>
      have accepted := Read.delete (byte ' ') pos len [] posNumber.1 lenNumber.1 noDigitFirst_nil
      rw [Nat.mod_eq_of_lt posNumber.2, Nat.mod_eq_of_lt lenNumber.2] at accepted
      simpa [ascii] using accepted

/-- What departs from the format is not written in it. -/
theorem Loose.not_documented {s : ByteString} (loose : Loose s) (op : DocOp Byte) :
    ¬ Documented s op := by
  intro documented
  cases documented with
  | insert pos text number =>
      generalize split : ascii ['I', ' '] ++ pos ++ ascii [' '] ++ text = s at loose
      cases loose with
      | insert c digits rest run stops departs =>
          simp only [ascii, List.map_cons, List.map_nil, List.cons_append, List.nil_append,
            List.append_assoc, List.cons.injEq, true_and] at split
          obtain ⟨rfl, same⟩ := split
          obtain ⟨rfl, rfl⟩ := number.1.append_inj run (noDigitFirst_space text) stops same
          rcases departs with second | large | noSpace
          · exact second rfl
          · exact absurd number.2 (Nat.not_lt.mpr large)
          · exact noSpace rfl
      | delete c digits len rest posRun lenRun stops departs =>
          simp only [ascii, List.map_cons, List.cons_append, List.cons.injEq] at split
          exact absurd split.1 (by decide)
  | delete pos len posNumber lenNumber =>
      generalize split : ascii ['D', ' '] ++ pos ++ ascii [' '] ++ len = s at loose
      cases loose with
      | insert c digits rest run stops departs =>
          simp only [ascii, List.map_cons, List.cons_append, List.cons.injEq] at split
          exact absurd split.1 (by decide)
      | delete c digits lenDigits rest posRun lenRun stops departs =>
          simp only [ascii, List.map_cons, List.map_nil, List.cons_append, List.nil_append,
            List.append_assoc, List.cons.injEq, true_and] at split
          obtain ⟨rfl, same⟩ := split
          obtain ⟨rfl, sameLen⟩ := posNumber.1.append_inj posRun (noDigitFirst_space _)
            (noDigitFirst_space _) same
          rw [List.cons.injEq, ← List.append_nil len] at sameLen
          obtain ⟨rfl, rfl⟩ := lenNumber.1.append_inj lenRun noDigitFirst_nil stops sameLen.2
          rcases departs with second | large | lenLarge | more
          · exact second rfl
          · exact absurd posNumber.2 (Nat.not_lt.mpr large)
          · exact absurd lenNumber.2 (Nat.not_lt.mpr lenLarge)
          · exact more rfl

/-- What is read is written in the format or departs from it. -/
theorem Read.documented_or_loose {s : ByteString} {op : DocOp Byte} (read : Read s op) :
    Documented s op ∨ Loose s := by
  cases read with
  | insert c pos rest run stops =>
      by_cases departs : c ≠ byte ' ' ∨ uint64Size ≤ decimalValue pos ∨
          rest.head? ≠ some (byte ' ')
      · exact Or.inr (.insert c pos rest run stops departs)
      · simp only [not_or, not_not, Nat.not_le] at departs
        obtain ⟨rfl, small, space⟩ := departs
        obtain ⟨text, rfl⟩ := List.head?_eq_some_iff.mp space
        rw [Nat.mod_eq_of_lt small, skipSpace_cons]
        left
        simpa [ascii] using Documented.insert pos text ⟨run, small⟩
  | delete c pos len rest posRun lenRun stops =>
      by_cases departs : c ≠ byte ' ' ∨ uint64Size ≤ decimalValue pos ∨
          uint64Size ≤ decimalValue len ∨ rest ≠ []
      · exact Or.inr (.delete c pos len rest posRun lenRun stops departs)
      · simp only [not_or, not_not, Nat.not_le] at departs
        obtain ⟨rfl, small, lenSmall, rfl⟩ := departs
        rw [Nat.mod_eq_of_lt small, Nat.mod_eq_of_lt lenSmall]
        left
        simpa [ascii] using Documented.delete pos len ⟨posRun, small⟩ ⟨lenRun, lenSmall⟩

/-- The reader accepts all that departs from the format. -/
theorem Loose.exists_read {s : ByteString} (loose : Loose s) : ∃ op, Read s op := by
  cases loose with
  | insert c pos rest run stops departs => exact ⟨_, .insert c pos rest run stops⟩
  | delete c pos len rest posRun lenRun stops departs =>
      exact ⟨_, .delete c pos len rest posRun lenRun stops⟩

/-- On a string, the reader does what the format says exactly when the string is
not one that it takes for an operation although it departs from the format. -/
theorem deserialize_documented_iff (s : ByteString) :
    (∀ op, deserialize s = some op ↔ Documented s op) ↔ ¬ Loose s := by
  constructor
  · intro agrees loose
    obtain ⟨op, read⟩ := loose.exists_read
    exact loose.not_documented op ((agrees op).mp (deserialize_eq_some_iff.mpr read))
  · intro strict op
    rw [deserialize_eq_some_iff]
    constructor
    · intro read
      exact read.documented_or_loose.resolve_right strict
    · exact Documented.read

/-- A deletion with a letter behind its length. -/
theorem trailingLetter_accepted :
    deserialize (ascii ['D', ' ', '5', ' ', '3', 'x']) = some (.delete 5 3) ∧
      ¬ ∀ s op, deserialize s = some op ↔ Documented s op := by
  have accepted : deserialize (ascii ['D', ' ', '5', ' ', '3', 'x']) = some (.delete 5 3) := by
    decide
  refine ⟨accepted, fun agrees => ?_⟩
  have digit : ∀ d, isDigit d = true → IsNumeral [d] := fun d isDigit =>
    ⟨List.cons_ne_nil d [], fun b member => List.mem_singleton.mp member ▸ isDigit⟩
  have stops : NoDigitFirst [byte 'x'] := by
    intro b first
    obtain rfl := Option.some.inj first
    decide
  have loose : Loose (ascii ['D', ' ', '5', ' ', '3', 'x']) :=
    .delete (byte ' ') [byte '5'] [byte '3'] [byte 'x'] (digit _ (by decide)) (digit _ (by decide))
      stops (Or.inr (Or.inr (Or.inr (List.cons_ne_nil _ _))))
  exact loose.not_documented _ ((agrees _ _).mp accepted)

end DoomDraft.Document
