import DoomDraft.Foundation.Decimal

/-!
# Reading fields of a JSON body

`json_get_string` and `json_get_int` look for the quoted key anywhere in the
body, then for a colon, and read a value behind it.
-/

namespace DoomDraft.Server

/-- The byte `"`. -/
def quote : Byte := byte '"'

/-- The byte `\`. -/
def backslash : Byte := byte '\\'

/-- The key between quotes. -/
def quoted (key : ByteString) : ByteString :=
  quote :: (key ++ [quote])

/-- What is behind the first occurrence of `needle`, as found by `find`. -/
def afterFirst (needle : ByteString) : ByteString → Option ByteString
  | [] => if needle.isPrefixOf [] then some [] else none
  | b :: rest =>
      if needle.isPrefixOf (b :: rest) then some ((b :: rest).drop needle.length)
      else afterFirst needle rest

/-- The byte for which an escape sequence stands. -/
def unescape (n : Byte) : Byte :=
  if n = byte 'n' then 10 else if n = byte 't' then 9 else n

/-- The loop of `json_get_string`: the string up to the closing quote. -/
def readString : ByteString → Option ByteString
  | [] => none
  | [c] => if c = quote then some [] else none
  | c :: n :: rest =>
      if c = backslash then (readString rest).map (unescape n :: ·)
      else if c = quote then some []
      else (readString (n :: rest)).map (c :: ·)

/-- `json_get_string`. -/
def jsonGetString (body key : ByteString) : Option ByteString :=
  (afterFirst (quoted key) body).bind fun rest =>
    (afterFirst [byte ':'] rest).bind fun rest =>
      (afterFirst [quote] rest).bind readString

/-- Wrap to a signed 64-bit integer. -/
def int64 (v : Int) : Int :=
  v.bmod uint64Size

/-- The end of `json_get_int`: blanks, a sign and a run of digits. -/
def readInt (s : ByteString) : Option Int :=
  let s := s.dropWhile fun b => b = byte ' ' ∨ b = 9
  let signed := s.head? = some (byte '-') ∨ s.head? = some (byte '+')
  let digits := (if signed then s.tail else s).takeWhile isDigit
  if digits = [] then none
  else
    let v := digits.foldl (fun v b => int64 (v * 10 + digitValue b)) 0
    some (if s.head? = some (byte '-') then int64 (-v) else v)

/-- `json_get_int`. -/
def jsonGetInt (body key : ByteString) : Option Int :=
  (afterFirst (quoted key) body).bind fun rest => (afterFirst [byte ':'] rest).bind readInt

/-! ## Searching

A body is cut at its quotes.  A key without quotes is found at the first piece
between two quotes that equals it. -/

theorem afterFirst_singleton {b : Byte} {chunk : ByteString} (absent : b ∉ chunk)
    (rest : ByteString) : afterFirst [b] (chunk ++ b :: rest) = some rest := by
  induction chunk with
  | nil => simp [afterFirst]
  | cons c chunk ih =>
      have different : b ≠ c := fun same => absent (same ▸ List.mem_cons_self)
      have later : b ∉ chunk := fun member => absent (List.mem_cons_of_mem c member)
      simp only [List.cons_append, afterFirst, List.isPrefixOf_cons_cons, List.isPrefixOf_nil_left,
        Bool.and_true, beq_iff_eq, if_neg different]
      exact ih later

/-- The search passes over what is not a quote. -/
theorem afterFirst_skip (key : ByteString) {chunk : ByteString} (clean : quote ∉ chunk)
    (rest : ByteString) :
    afterFirst (quoted key) (chunk ++ rest) = afterFirst (quoted key) rest := by
  induction chunk with
  | nil => rfl
  | cons c chunk ih =>
      have different : quote ≠ c := fun same => clean (same ▸ List.mem_cons_self)
      have later : quote ∉ chunk := fun member => clean (List.mem_cons_of_mem c member)
      simp only [List.cons_append, afterFirst, quoted, List.isPrefixOf_cons_cons, Bool.and_eq_true,
        beq_iff_eq, different, false_and, if_false]
      exact ih later

theorem isPrefixOf_chunk_iff {key chunk : ByteString} (keyClean : quote ∉ key)
    (chunkClean : quote ∉ chunk) (rest : ByteString) :
    (key ++ [quote]).isPrefixOf (chunk ++ quote :: rest) = true ↔ chunk = key := by
  induction key generalizing chunk with
  | nil =>
      cases chunk with
      | nil => simp
      | cons c chunk =>
          have different : quote ≠ c := fun same => chunkClean (same ▸ List.mem_cons_self)
          simp [different]
  | cons k key ih =>
      have keyHead : k ≠ quote := fun same => keyClean (same ▸ List.mem_cons_self)
      have keyTail : quote ∉ key := fun member => keyClean (List.mem_cons_of_mem k member)
      cases chunk with
      | nil => simp [keyHead]
      | cons c chunk =>
          have chunkTail : quote ∉ chunk := fun member => chunkClean (List.mem_cons_of_mem c member)
          simp only [List.cons_append, List.isPrefixOf_cons_cons, Bool.and_eq_true, beq_iff_eq,
            ih keyTail chunkTail, List.cons.injEq]
          exact and_congr_left' eq_comm

/-- The piece behind a quote is the key, or the search goes on at the next
quote. -/
theorem afterFirst_chunk {key chunk : ByteString} (keyClean : quote ∉ key)
    (chunkClean : quote ∉ chunk) (rest : ByteString) :
    afterFirst (quoted key) (quote :: (chunk ++ quote :: rest)) =
      if chunk = key then some rest else afterFirst (quoted key) (quote :: rest) := by
  rw [afterFirst]
  simp only [quoted, List.isPrefixOf_cons_cons, beq_self_eq_true, Bool.true_and,
    isPrefixOf_chunk_iff keyClean chunkClean]
  split
  · rename_i same
    subst same
    simp
  · exact afterFirst_skip key chunkClean (quote :: rest)

/-- The pieces, each with a quote behind it, and then the rest. -/
def cut : List ByteString → ByteString → ByteString
  | [], rest => rest
  | chunk :: chunks, rest => chunk ++ quote :: cut chunks rest

theorem cut_append (first second : List ByteString) (rest : ByteString) :
    cut (first ++ second) rest = cut first (cut second rest) := by
  induction first with
  | nil => rfl
  | cons chunk first ih => simp only [List.cons_append, cut, ih]

/-- The search passes over pieces that are not the key. -/
theorem afterFirst_cut {key : ByteString} (keyClean : quote ∉ key) {chunks : List ByteString}
    (clean : ∀ chunk ∈ chunks, quote ∉ chunk) (absent : key ∉ chunks) (rest : ByteString) :
    afterFirst (quoted key) (quote :: cut chunks rest) =
      afterFirst (quoted key) (quote :: rest) := by
  induction chunks with
  | nil => rfl
  | cons chunk chunks ih =>
      rw [List.forall_mem_cons] at clean
      rw [List.mem_cons, not_or] at absent
      rw [cut, afterFirst_chunk keyClean clean.1, if_neg (Ne.symm absent.1)]
      exact ih clean.2 absent.2

/-- The search stops at the first piece that is the key. -/
theorem afterFirst_cut_key {key : ByteString} (keyClean : quote ∉ key) {before : List ByteString}
    (clean : ∀ chunk ∈ before, quote ∉ chunk) (absent : key ∉ before) (after : List ByteString)
    (rest : ByteString) :
    afterFirst (quoted key) (quote :: cut (before ++ key :: after) rest) =
      some (cut after rest) := by
  rw [cut_append, afterFirst_cut keyClean clean absent, cut, afterFirst_chunk keyClean keyClean,
    if_pos rfl]

/-! ## Reading -/

theorem readString_quote (rest : ByteString) : readString (quote :: rest) = some [] := by
  cases rest with
  | nil => rfl
  | cons n rest => rfl

theorem readString_escape (n : Byte) (rest : ByteString) :
    readString (backslash :: n :: rest) = (readString rest).map (unescape n :: ·) := by
  simp [readString]

theorem readString_cons {b : Byte} (notBackslash : b ≠ backslash) (notQuote : b ≠ quote)
    (rest : ByteString) : readString (b :: rest) = (readString rest).map (b :: ·) := by
  cases rest with
  | nil => simp [readString, notQuote]
  | cons n rest => simp [readString, notBackslash, notQuote]

theorem readString_append {chunk : ByteString} (notBackslash : backslash ∉ chunk)
    (notQuote : quote ∉ chunk) (rest : ByteString) :
    readString (chunk ++ rest) = (readString rest).map (chunk ++ ·) := by
  induction chunk with
  | nil => simp
  | cons b chunk ih =>
      rw [List.mem_cons, not_or] at notBackslash notQuote
      rw [List.cons_append, readString_cons (Ne.symm notBackslash.1) (Ne.symm notQuote.1),
        ih notBackslash.2 notQuote.2, Option.map_map]
      rfl

theorem foldl_int64_eq (digits : ByteString) :
    digits.foldl (fun v b => int64 (v * 10 + digitValue b)) 0 = int64 (decimalValue digits) := by
  induction digits using List.reverseRecOn with
  | nil => rfl
  | append_singleton digits b ih =>
      simp only [decimalValue, List.foldl_append, List.foldl_cons, List.foldl_nil] at ih ⊢
      rw [ih]
      push_cast
      rw [int64, int64, int64, ← Int.bmod_add_bmod, Int.bmod_mul_bmod, Int.bmod_add_bmod]

theorem int64_of_lt {n : Nat} (small : n < 2 ^ 63) : int64 n = n := by
  rw [int64, uint64Size]
  apply Int.bmod_eq_of_le <;> omega

/-- Reading back a number. -/
theorem readInt_decimal {n : Nat} (small : n < 2 ^ 63) {rest : ByteString}
    (stops : NoDigitFirst rest) : readInt (decimal n ++ rest) = some (n : Int) := by
  have run := takeWhile_decimal_append n stops
  obtain ⟨d, digits, split⟩ := List.exists_cons_of_ne_nil (decimal_ne_nil n)
  have digit : isDigit d = true := isDigit_of_mem_decimal (by rw [split]; exact List.mem_cons_self)
  have other : ∀ c : Byte, isDigit c = false → d ≠ c := by
    rintro c notDigit rfl
    exact absurd digit (by simp [notDigit])
  have value := foldl_int64_eq (decimal n)
  rw [decimalValue_decimal, int64_of_lt small] at value
  rw [split] at run value ⊢
  simp only [readInt, List.cons_append, List.dropWhile_cons, other (byte ' ') rfl, other 9 rfl,
    or_self, decide_false, Bool.false_eq_true, if_false, List.head?_cons, Option.some.injEq,
    other (byte '-') rfl, other (byte '+') rfl] at run ⊢
  rw [run, value]
  simp

end DoomDraft.Server
