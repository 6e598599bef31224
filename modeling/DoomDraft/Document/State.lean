import DoomDraft.Document.Codec
import DoomDraft.Foundation.KeySorted
import DoomDraft.Pancy.Versions
import Mathlib.Data.List.TakeWhile

/-!
# Committed operations in the database

The operations of a document live under keys `doc/<id>/op/<client>/<seq>`.
`read_ops` collects them from a database and sorts them by version;
`reconstruct` replays them.
-/

namespace DoomDraft.Document

open Pancy

/-- `committed_op`. -/
structure CommittedOp where
  version : Int
  clientId : Nat
  clientSeq : Nat
  op : DocOp Byte
  clientIdLabel : ByteString
  deriving DecidableEq

/-- `doc_op_prefix`. -/
def docOpPrefix (docId : ByteString) : ByteString :=
  ascii ['d', 'o', 'c', '/'] ++ docId ++ ascii ['/', 'o', 'p', '/']

/-- `op_key`. -/
def opKey (docId : ByteString) (clientId clientSeq : Nat) : ByteString :=
  docOpPrefix docId ++ decimal clientId ++ ascii ['/'] ++ decimal clientSeq

/-- `std::from_chars` for a `uint64_t`: the value of the leading digits and the
rest of the string; undefined where it reports an error. -/
def fromChars (s : ByteString) : Option (Nat × ByteString) :=
  let digits := s.takeWhile isDigit
  if digits = [] ∨ uint64Size ≤ decimalValue digits then none
  else some (decimalValue digits, s.dropWhile isDigit)

/-- Parse a whole string as a `uint64_t`. -/
def parseWhole (s : ByteString) : Option Nat :=
  match fromChars s with
  | some (value, []) => some value
  | _ => none

/-- `parse_op_suffix`. -/
def parseOpSuffix (suffix : ByteString) : Option (Nat × Nat) :=
  let a := suffix.takeWhile (· ≠ byte '/')
  match suffix.dropWhile (· ≠ byte '/') with
  | [] => none
  | _ :: b =>
      if a = [] ∨ b = [] then none
      else if byte '/' ∈ b then none
      else (parseWhole a).bind fun clientId => (parseWhole b).map fun clientSeq =>
        (clientId, clientSeq)

/-- The body of the loop of `read_ops`. -/
def readCell (docId key : ByteString) (cell : Vv) : Option CommittedOp :=
  let start := docOpPrefix docId
  if key.length ≤ start.length ∨ key.take start.length ≠ start then none
  else (parseOpSuffix (key.drop start.length)).bind fun (clientId, clientSeq) =>
    if cell.version = nonexistentVersion then none
    else (deserialize cell.value).map fun op => ⟨cell.version, clientId, clientSeq, op, []⟩

/-- The comparison of `read_ops`. -/
def CommittedOp.precedes (x y : CommittedOp) : Bool :=
  if x.version ≠ y.version then x.version < y.version
  else if x.clientId ≠ y.clientId then x.clientId < y.clientId
  else x.clientSeq < y.clientSeq

/-- `std::sort` of operations. -/
def sortOps (ops : List CommittedOp) : List CommittedOp :=
  ops.insertionSort fun x y => y.precedes x = false

/-- `read_ops`. -/
def readOps (db : PancyDb) (docId : ByteString) : List CommittedOp :=
  sortOps (db.db.entries.filterMap fun (key, cell) => readCell docId key cell)

/-- `reconstruct`. -/
def reconstruct (ops : List CommittedOp) : ByteString :=
  ops.foldl (fun text c => applyOp text c.op) []

theorem reconstruct_eq (ops : List CommittedOp) :
    reconstruct ops = applyAll [] (ops.map CommittedOp.op) := by
  simp [reconstruct, applyAll, List.foldl_map]

/-! ## Sorting -/

theorem CommittedOp.version_le {x y : CommittedOp} (notAfter : y.precedes x = false) :
    x.version ≤ y.version := by
  unfold CommittedOp.precedes at notAfter
  split at notAfter
  · have := of_decide_eq_false notAfter
    omega
  · rename_i same
    exact (not_not.mp same).ge

theorem sortOps_sorted (ops : List CommittedOp) :
    (sortOps ops).Pairwise fun x y => x.version ≤ y.version := by
  have total : Std.Total fun x y : CommittedOp => y.precedes x = false := by
    refine ⟨fun x y => ?_⟩
    simp only [CommittedOp.precedes]
    split_ifs <;> simp only [decide_eq_false_iff_not] <;> omega
  have transitive : IsTrans CommittedOp fun x y => y.precedes x = false := by
    refine ⟨fun x y z => ?_⟩
    simp only [CommittedOp.precedes]
    split_ifs <;> simp only [decide_eq_false_iff_not] <;> omega
  exact (List.pairwise_insertionSort _ ops).imp CommittedOp.version_le

theorem mem_readOps {db : PancyDb} {docId : ByteString} {c : CommittedOp} :
    c ∈ readOps db docId ↔
      ∃ key cell, db.db.find? key = some cell ∧ readCell docId key cell = some c := by
  simp only [readOps, sortOps, List.mem_insertionSort, List.mem_filterMap, Prod.exists,
    OrderedMap.find?_eq_some_iff]

theorem readCell_version {docId key : ByteString} {cell : Vv} {c : CommittedOp}
    (read : readCell docId key cell = some c) : c.version = cell.version := by
  simp only [readCell] at read
  split at read
  · contradiction
  · obtain ⟨ids, -, read⟩ := Option.bind_eq_some_iff.mp read
    split at read
    · contradiction
    · obtain ⟨op, -, rfl⟩ := Option.map_eq_some_iff.mp read
      rfl

/-- The operations that `read_ops` returns have strictly increasing versions. -/
theorem keySorted_readOps {db : PancyDb} (versioned : db.WellVersioned) (docId : ByteString) :
    KeySorted CommittedOp.version (readOps db docId) := by
  refine KeySorted.of_le (sortOps_sorted _) ?_
  refine ((List.perm_insertionSort _ _).pairwise_iff fun different => different.symm).mpr ?_
  refine List.pairwise_filterMap.mpr (db.db.sorted.imp_of_mem ?_)
  rintro ⟨key, cell⟩ ⟨other, otherCell⟩ member otherMember less c read d otherRead same
  rw [readCell_version read, readCell_version otherRead] at same
  have keyEq := versioned.distinct key other cell otherCell
    ((db.db.find?_eq_some_iff key cell).mpr member)
    ((db.db.find?_eq_some_iff other otherCell).mpr otherMember) same
  exact absurd keyEq less.ne

/-! ## Keys -/

theorem parseWhole_decimal {n : Nat} (fits : n < uint64Size) : parseWhole (decimal n) = some n := by
  have digits := takeWhile_decimal_append n noDigitFirst_nil
  have rest := dropWhile_decimal_append n noDigitFirst_nil
  rw [List.append_nil] at digits rest
  have small : ¬ (decimal n = [] ∨ uint64Size ≤ n) := by
    simp [decimal_ne_nil, fits]
  simp only [parseWhole, fromChars, digits, rest, decimalValue_decimal, if_neg small]

theorem slash_notMem_decimal (n : Nat) : byte '/' ∉ decimal n := by
  intro member
  have digit := isDigit_of_mem_decimal member
  revert digit
  decide

theorem parseOpSuffix_decimal {clientId clientSeq : Nat} (idFits : clientId < uint64Size)
    (seqFits : clientSeq < uint64Size) :
    parseOpSuffix (decimal clientId ++ byte '/' :: decimal clientSeq) =
      some (clientId, clientSeq) := by
  have noSlash : ∀ b ∈ decimal clientId, decide (b ≠ byte '/') = true := by
    intro b member
    simp only [ne_eq, decide_not, Bool.not_eq_eq_eq_not, Bool.not_true, decide_eq_false_iff_not]
    rintro rfl
    exact slash_notMem_decimal clientId member
  have front : (decimal clientId ++ byte '/' :: decimal clientSeq).takeWhile (· ≠ byte '/') =
      decimal clientId := by
    rw [List.takeWhile_append_of_pos noSlash]
    simp
  have back : (decimal clientId ++ byte '/' :: decimal clientSeq).dropWhile (· ≠ byte '/') =
      byte '/' :: decimal clientSeq := by
    rw [List.dropWhile_append_of_pos noSlash]
    simp
  simp only [parseOpSuffix, front, back, decimal_ne_nil, or_self, if_false,
    slash_notMem_decimal, parseWhole_decimal idFits, parseWhole_decimal seqFits,
    Option.bind_some, Option.map_some]

/-- The cell of an operation is read back by its document. -/
theorem readCell_opKey {docId : ByteString} {clientId clientSeq : Nat} {op : DocOp Byte}
    {version : Int} (idFits : clientId < uint64Size) (seqFits : clientSeq < uint64Size)
    (opFits : op.Fits) (stored : version ≠ nonexistentVersion) :
    readCell docId (opKey docId clientId clientSeq) ⟨serialize op, version⟩ =
      some ⟨version, clientId, clientSeq, op, []⟩ := by
  have shape : opKey docId clientId clientSeq =
      docOpPrefix docId ++ (decimal clientId ++ byte '/' :: decimal clientSeq) := by
    simp [opKey, ascii]
  have longer : ¬ ((opKey docId clientId clientSeq).length ≤ (docOpPrefix docId).length ∨
      (opKey docId clientId clientSeq).take (docOpPrefix docId).length ≠ docOpPrefix docId) := by
    rw [shape, List.take_left, List.length_append, List.length_append, List.length_cons]
    simp only [ne_eq, not_true_eq_false, or_false]
    omega
  simp only [readCell, if_neg longer]
  rw [shape, List.drop_left, parseOpSuffix_decimal idFits seqFits]
  simp [stored, deserialize_serialize opFits]

/-- A nonempty run of digits. -/
def IsNumeral (s : ByteString) : Prop :=
  s ≠ [] ∧ ∀ b ∈ s, isDigit b = true

theorem isNumeral_decimal (n : Nat) : IsNumeral (decimal n) :=
  ⟨decimal_ne_nil n, fun _ => isDigit_of_mem_decimal⟩

theorem IsNumeral.slash_notMem {s : ByteString} (numeral : IsNumeral s) : byte '/' ∉ s := by
  intro member
  have digit := numeral.2 _ member
  revert digit
  decide

/-- `doc/<id>/op/<x>/<y>` for numerals `x` and `y`. -/
def IsOpKey (key : ByteString) : Prop :=
  ∃ docId x y, IsNumeral x ∧ IsNumeral y ∧ key = docOpPrefix docId ++ x ++ byte '/' :: y

theorem parseWhole_eq_some {s : ByteString} {n : Nat} (parsed : parseWhole s = some n) :
    IsNumeral s ∧ n = decimalValue s := by
  unfold parseWhole fromChars at parsed
  dsimp only at parsed
  split at parsed
  · rename_i value read
    obtain rfl := Option.some.inj parsed
    split at read
    · contradiction
    · rename_i accepted
      obtain ⟨nonempty, -⟩ := not_or.mp accepted
      obtain ⟨rfl, rest⟩ := Prod.mk.inj (Option.some.inj read)
      have digits := List.dropWhile_eq_nil_iff.mp rest
      rw [List.takeWhile_eq_self_iff.mpr digits] at nonempty ⊢
      exact ⟨⟨nonempty, digits⟩, rfl⟩
  · contradiction

theorem parseOpSuffix_eq_some {suffix : ByteString} {clientId clientSeq : Nat}
    (parsed : parseOpSuffix suffix = some (clientId, clientSeq)) :
    ∃ x y, IsNumeral x ∧ IsNumeral y ∧ suffix = x ++ byte '/' :: y ∧
      clientId = decimalValue x ∧ clientSeq = decimalValue y := by
  simp only [parseOpSuffix] at parsed
  split at parsed
  · contradiction
  · rename_i slash y back
    split at parsed
    · contradiction
    · split at parsed
      · contradiction
      · obtain ⟨first, firstParsed, parsed⟩ := Option.bind_eq_some_iff.mp parsed
        obtain ⟨second, secondParsed, same⟩ := Option.map_eq_some_iff.mp parsed
        obtain ⟨rfl, rfl⟩ := Prod.mk.inj same
        obtain ⟨xNumeral, xValue⟩ := parseWhole_eq_some firstParsed
        obtain ⟨yNumeral, yValue⟩ := parseWhole_eq_some secondParsed
        refine ⟨_, y, xNumeral, yNumeral, ?_, xValue, yValue⟩
        have isSlash : slash = byte '/' := by
          have stopped := List.head?_dropWhile_not (· ≠ byte '/') suffix
          rw [back] at stopped
          simpa using stopped
        calc
          suffix = suffix.takeWhile (· ≠ byte '/') ++ suffix.dropWhile (· ≠ byte '/') :=
            List.takeWhile_append_dropWhile.symm
          _ = suffix.takeWhile (· ≠ byte '/') ++ byte '/' :: y := by rw [back, isSlash]

/-- The last separator of a string is determined by the string. -/
theorem append_cons_inj_of_notMem {x y : ByteString} {first second : ByteString} {b : Byte}
    (firstFree : b ∉ first) (secondFree : b ∉ second)
    (same : x ++ b :: first = y ++ b :: second) : x = y ∧ first = second := by
  rcases List.append_eq_append_iff.mp same with ⟨more, yEq, moreEq⟩ | ⟨more, xEq, moreEq⟩
  · cases more with
    | nil => simpa [eq_comm] using And.intro yEq moreEq
    | cons head rest =>
        obtain ⟨-, rfl⟩ := List.cons.inj moreEq
        exact absurd (by simp) firstFree
  · cases more with
    | nil => simpa [eq_comm] using And.intro xEq moreEq
    | cons head rest =>
        obtain ⟨-, rfl⟩ := List.cons.inj moreEq
        exact absurd (by simp) secondFree

theorem opKey_eq (docId : ByteString) (clientId clientSeq : Nat) :
    opKey docId clientId clientSeq =
      docOpPrefix docId ++ decimal clientId ++ byte '/' :: decimal clientSeq := by
  simp [opKey, ascii]

/-- A key is an operation key of one document only, with one pair of numerals. -/
theorem docOpPrefix_append_inj {docId otherId x y otherX otherY : ByteString}
    (xFree : byte '/' ∉ x) (yFree : byte '/' ∉ y) (otherXFree : byte '/' ∉ otherX)
    (otherYFree : byte '/' ∉ otherY)
    (same : docOpPrefix docId ++ x ++ byte '/' :: y =
      docOpPrefix otherId ++ otherX ++ byte '/' :: otherY) :
    docId = otherId ∧ x = otherX ∧ y = otherY := by
  obtain ⟨front, yEq⟩ := append_cons_inj_of_notMem yFree otherYFree same
  have split : ∀ id z : ByteString, docOpPrefix id ++ z =
      (ascii ['d', 'o', 'c', '/'] ++ id ++ ascii ['/', 'o', 'p']) ++ byte '/' :: z := by
    intro id z
    simp [docOpPrefix, ascii]
  rw [split, split] at front
  obtain ⟨ids, xEq⟩ := append_cons_inj_of_notMem xFree otherXFree front
  exact ⟨List.append_cancel_left (List.append_cancel_right ids), xEq, yEq⟩

/-- The document, the client and the sequence number determine the key. -/
theorem opKey_injective {docId otherId : ByteString} {clientId otherClient seq otherSeq : Nat}
    (same : opKey docId clientId seq = opKey otherId otherClient otherSeq) :
    docId = otherId ∧ clientId = otherClient ∧ seq = otherSeq := by
  rw [opKey_eq, opKey_eq] at same
  obtain ⟨docEq, clientEq, seqEq⟩ := docOpPrefix_append_inj (slash_notMem_decimal _)
    (slash_notMem_decimal _) (slash_notMem_decimal _) (slash_notMem_decimal _) same
  exact ⟨docEq, decimal_injective clientEq, decimal_injective seqEq⟩

/-- What `read_ops` takes a cell of document `docId` to be. -/
theorem readCell_eq_some {docId key : ByteString} {cell : Vv} {c : CommittedOp}
    (read : readCell docId key cell = some c) :
    ∃ x y, IsNumeral x ∧ IsNumeral y ∧ key = docOpPrefix docId ++ x ++ byte '/' :: y ∧
      c.clientId = decimalValue x ∧ c.clientSeq = decimalValue y ∧
      deserialize cell.value = some c.op ∧ c.version = cell.version ∧ c.clientIdLabel = [] := by
  simp only [readCell] at read
  split at read
  · contradiction
  · rename_i accepted
    obtain ⟨-, starts⟩ := not_or.mp accepted
    obtain ⟨⟨clientId, clientSeq⟩, parsed, read⟩ := Option.bind_eq_some_iff.mp read
    obtain ⟨x, y, xNumeral, yNumeral, suffixEq, idEq, seqEq⟩ := parseOpSuffix_eq_some parsed
    split at read
    · contradiction
    · obtain ⟨op, value, rfl⟩ := Option.map_eq_some_iff.mp read
      refine ⟨x, y, xNumeral, yNumeral, ?_, idEq, seqEq, value, rfl, rfl⟩
      rw [List.append_assoc, ← suffixEq]
      have split := (List.take_append_drop (docOpPrefix docId).length key).symm
      rwa [not_not.mp starts] at split

end DoomDraft.Document
