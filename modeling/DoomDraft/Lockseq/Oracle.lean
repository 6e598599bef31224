import DoomDraft.Lockseq.Keys

/-!
# The oracle

`lockseq_model::check` scans the database in key order and looks for a key that no
clients can have left behind.  It keeps the group of the last key, the value and the
index that it expects next, and whether the group is locked and if so on which side
of the gap it is.
-/

namespace DoomDraft.Lockseq

open Pancy

/-- `unsigned(-1)`. -/
def badDigits : Nat := 2 ^ 32 - 1

/-- The loop of `parse_digits`. -/
def parseDigitsLoop (v : Nat) : ByteString → Nat
  | [] => v
  | ch :: rest =>
      if isDigit ch = false then badDigits
      else
        let vv := (v * 10 + digitValue ch) % 2 ^ 32
        if vv < v then badDigits else parseDigitsLoop vv rest

/-- `parse_digits`. -/
def parseDigits (s : ByteString) (first last : Nat) : Nat :=
  if last ≤ first then badDigits else parseDigitsLoop 0 ((s.take last).drop first)

/-- The locks of a group, as the scan knows them. -/
inductive LockState where
  | unlocked
  | lockedStart
  | lockedRest
  deriving DecidableEq

/-- The local variables of `check`. -/
structure CheckState where
  lastGroup : ByteString
  glen : Nat
  expectedValue : ByteString
  expectedIndex : Nat
  lockState : LockState

namespace CheckState

/-- Nothing has been read. -/
def start : CheckState where
  lastGroup := []
  glen := 0
  expectedValue := []
  expectedIndex := 0
  lockState := .unlocked

/-- A key of a new group. -/
def enterGroup (key : ByteString) : Option CheckState :=
  if key.length < 3 ∨ key.head? ≠ some (byte 'g') then none
  else
    let slash := (key.takeWhile (· ≠ byte '/')).length
    if slash = key.length then none
    else if parseDigits key 1 slash = badDigits then none
    else some {
      lastGroup := key.take (slash + 1)
      glen := slash + 1
      expectedValue := []
      expectedIndex := 0
      lockState := .unlocked }

/-- A lock key. -/
def checkLock (self : CheckState) (value : ByteString) : Option CheckState :=
  if self.expectedIndex ≠ 0 ∨ self.lockState ≠ .unlocked then none
  else if value.length = 0 then some self
  else if value.length < 4 ∨ value.head? ≠ some (byte 'c') then none
  else some { self with lockState := .lockedStart, expectedValue := value }

/-- The index of a value key. -/
def checkIndex (self : CheckState) (vindex : Nat) : Option CheckState :=
  if vindex ≠ self.expectedIndex then
    if self.lockState = .unlocked ∨ self.lockState = .lockedRest ∨ vindex < self.expectedIndex then
      none
    else some { self with lockState := .lockedRest, expectedIndex := vindex, expectedValue := [] }
  else some self

/-- The value of a value key. -/
def checkValue (self : CheckState) (value : ByteString) : Option CheckState :=
  let expected := self.expectedIndex + 1
  if self.expectedValue ≠ [] ∧ value ≠ self.expectedValue then
    if self.lockState ≠ .lockedStart then none
    else some { self with
      lockState := .lockedRest, expectedValue := value, expectedIndex := expected }
  else some { self with expectedValue := value, expectedIndex := expected }

/-- A key within its group. -/
def checkKey (self : CheckState) (key value : ByteString) : Option CheckState :=
  if key.length = self.glen + 4 ∧ ascii ['l', 'o', 'c', 'k'] <:+ key then self.checkLock value
  else
    let vindex := parseDigits key (self.glen + 1) (self.glen + 4)
    if key.length ≠ self.glen + 4 ∨ key[self.glen]? ≠ some (byte 'v') ∨ vindex = badDigits ∨
        value = [] then none
    else (self.checkIndex vindex).bind fun self => self.checkValue value

/-- One turn of the loop of `check`; undefined where it returns the key. -/
def checkEntry (self : CheckState) (key value : ByteString) : Option CheckState :=
  if self.lastGroup = [] ∨ ¬ self.lastGroup <+: key then
    (enterGroup key).bind fun self => self.checkKey key value
  else self.checkKey key value

/-- The loop of `check`. -/
def checkEntries (self : CheckState) : List (ByteString × Vv) → Option ByteString
  | [] => none
  | (key, cell) :: rest =>
      match self.checkEntry key cell.value with
      | none => some key
      | some next => next.checkEntries rest

end CheckState

/-- `check`: a key that no clients can have left behind. -/
def check (db : PancyDb) : Option ByteString :=
  CheckState.start.checkEntries db.db.entries

/-! ## Numerals in keys -/

theorem le_foldl_digits (v : Nat) (digits : ByteString) :
    v ≤ digits.foldl (fun value b => value * 10 + digitValue b) v := by
  induction digits generalizing v with
  | nil => exact Nat.le_refl v
  | cons b digits ih =>
      calc
        v ≤ v * 10 + digitValue b := by omega
        _ ≤ _ := ih _

/-- Without overflow the loop gives the value of the digits. -/
theorem parseDigitsLoop_eq (v : Nat) {digits : ByteString}
    (isDigits : ∀ b ∈ digits, isDigit b = true)
    (small : digits.foldl (fun value b => value * 10 + digitValue b) v < 2 ^ 32) :
    parseDigitsLoop v digits = digits.foldl (fun value b => value * 10 + digitValue b) v := by
  induction digits generalizing v with
  | nil => rfl
  | cons b digits ih =>
      rw [List.forall_mem_cons] at isDigits
      rw [List.foldl_cons] at small
      have fits : v * 10 + digitValue b < 2 ^ 32 := (le_foldl_digits _ digits).trans_lt small
      have grows : ¬ v * 10 + digitValue b < v := by omega
      rw [parseDigitsLoop, if_neg (by simp [isDigits.1]), Nat.mod_eq_of_lt fits, if_neg grows,
        ih _ isDigits.2 small, List.foldl_cons]

theorem parseDigits_group {gid : Nat} (small : gid < badDigits) (rest : ByteString) :
    parseDigits (makeGroupKey gid ++ rest) 1 (makeGroupKey gid).length = gid := by
  have value : (decimal gid).foldl (fun value b => value * 10 + digitValue b) 0 = gid :=
    decimalValue_decimal gid
  rw [parseDigits, if_neg (by simp [makeGroupKey, decimal_ne_nil]), List.take_left, makeGroupKey,
    List.drop_one, List.tail_cons, parseDigitsLoop_eq 0 (fun _ => isDigit_of_mem_decimal), value]
  rw [value]
  exact small.trans (by decide)

theorem valueSuffix_facts : ∀ vid < maxSequenceLength, (valueSuffix vid).length = 4 ∧
    parseDigitsLoop 0 (valueSuffix vid).tail = vid := by
  decide +kernel

/-! ## Keys of one group -/

namespace CheckState

/-- The scan is in the group. -/
def InGroup (self : CheckState) (gid : Nat) : Prop :=
  self.lastGroup = groupPrefix gid ∧ self.glen = (groupPrefix gid).length

/-- The state at the beginning of a group. -/
def fresh (gid : Nat) : CheckState where
  lastGroup := groupPrefix gid
  glen := (groupPrefix gid).length
  expectedValue := []
  expectedIndex := 0
  lockState := .unlocked

theorem inGroup_fresh (gid : Nat) : (fresh gid).InGroup gid :=
  ⟨rfl, rfl⟩

theorem groupPrefix_ne_nil (gid : Nat) : groupPrefix gid ≠ [] := by
  simp [groupPrefix, makeGroupKey]

theorem enterGroup_eq {gid : Nat} (small : gid < badDigits) {suffix : ByteString}
    (long : suffix ≠ []) : enterGroup (groupPrefix gid ++ suffix) = some (fresh gid) := by
  have letters : ∀ b ∈ makeGroupKey gid, decide (b ≠ byte '/') = true := by
    intro b member
    rw [decide_eq_true_eq]
    rintro rfl
    rcases List.mem_cons.mp member with letter | digit
    · exact absurd letter (by decide)
    · exact absurd (isDigit_of_mem_decimal digit) (by decide)
  have split : groupPrefix gid ++ suffix = makeGroupKey gid ++ byte '/' :: suffix := by
    simp [groupPrefix]
  have group : (groupPrefix gid ++ suffix).takeWhile (· ≠ byte '/') = makeGroupKey gid := by
    rw [split, List.takeWhile_append_of_pos letters]
    simp
  have positive : 0 < (decimal gid).length := List.length_pos_of_ne_nil (decimal_ne_nil gid)
  have length : (groupPrefix gid).length = (makeGroupKey gid).length + 1 := by
    simp [groupPrefix]
  have suffixPositive : 0 < suffix.length := List.length_pos_of_ne_nil long
  have whole : (groupPrefix gid ++ suffix).length = (decimal gid).length + 2 + suffix.length := by
    simp only [groupPrefix, makeGroupKey, List.length_append, List.length_cons, List.length_nil]
  have number := parseDigits_group small (byte '/' :: suffix)
  rw [← split] at number
  have first : (groupPrefix gid ++ suffix).head? = some (byte 'g') := rfl
  have slash : (makeGroupKey gid).length = (decimal gid).length + 1 := rfl
  rw [enterGroup, if_neg, group]
  · simp only [number]
    rw [if_neg (by omega), if_neg small.ne, ← length, List.take_left]
    rfl
  · rw [first]
    simp only [ne_eq, not_true_eq_false, or_false]
    omega

/-- A state in front of the group enters it. -/
theorem checkEntry_outside {self : CheckState} {gid : Nat} (small : gid < badDigits)
    (outside : self.lastGroup = [] ∨ ∃ other ≠ gid, self.lastGroup = groupPrefix other)
    {suffix : ByteString} (long : suffix ≠ []) (value : ByteString) :
    self.checkEntry (groupPrefix gid ++ suffix) value =
      (fresh gid).checkEntry (groupPrefix gid ++ suffix) value := by
  have inside : ¬ ((fresh gid).lastGroup = [] ∨
      ¬ (fresh gid).lastGroup <+: groupPrefix gid ++ suffix) := by
    rintro (empty | noPrefix)
    · exact groupPrefix_ne_nil gid empty
    · exact noPrefix (List.prefix_append _ _)
  rw [checkEntry, checkEntry, if_neg inside, if_pos, enterGroup_eq small long]
  · rfl
  · refine outside.imp id ?_
    rintro ⟨other, different, isGroup⟩ ⟨rest, same⟩
    rw [isGroup] at same
    exact different (groupPrefix_append_inj same).1

theorem checkEntry_inside {self : CheckState} {gid : Nat} (inGroup : self.InGroup gid)
    (suffix value : ByteString) : self.checkEntry (groupPrefix gid ++ suffix) value =
      self.checkKey (groupPrefix gid ++ suffix) value := by
  rw [checkEntry, if_neg]
  rw [inGroup.1]
  rintro (empty | noPrefix)
  · exact groupPrefix_ne_nil gid empty
  · exact noPrefix (List.prefix_append _ _)

theorem checkEntry_lock {self : CheckState} {gid : Nat} (inGroup : self.InGroup gid)
    (value : ByteString) :
    self.checkEntry (makeLockKey gid) value = self.checkLock value := by
  rw [makeLockKey_eq, checkEntry_inside inGroup, checkKey, if_pos]
  refine ⟨?_, List.suffix_append _ _⟩
  rw [inGroup.2, List.length_append]
  rfl

theorem checkEntry_value {self : CheckState} {gid vid : Nat} (inGroup : self.InGroup gid)
    (inRange : vid < maxSequenceLength) {value : ByteString} (nonempty : value ≠ []) :
    self.checkEntry (makeValueKey gid vid) value =
      (self.checkIndex vid).bind fun self => self.checkValue value := by
  obtain ⟨length, number⟩ := valueSuffix_facts vid inRange
  have digits : parseDigits (groupPrefix gid ++ valueSuffix vid) (self.glen + 1) (self.glen + 4) =
      vid := by
    rw [parseDigits, if_neg (by omega), inGroup.2, ← length, ← List.length_append,
      List.take_length, List.drop_append, List.drop_eq_nil_of_le (Nat.le_succ _)]
    simpa using number
  have notLock : ¬ ascii ['l', 'o', 'c', 'k'] <:+ groupPrefix gid ++ valueSuffix vid := by
    intro isLock
    have same : ascii ['l', 'o', 'c', 'k'] = valueSuffix vid :=
      (List.suffix_of_suffix_length_le isLock (List.suffix_append _ _) length.ge).eq_of_length
        length.symm
    have letter : byte 'l' ≠ byte 'v' := by decide
    exact letter (List.cons.inj same).1
  rw [makeValueKey_eq, checkEntry_inside inGroup, checkKey, if_neg (fun both => notLock both.2),
    digits, if_neg]
  rw [List.length_append, length, inGroup.2]
  have letter : (groupPrefix gid ++ valueSuffix vid)[(groupPrefix gid).length]? =
      some (byte 'v') := by
    simp [valueSuffix]
  simp only [ne_eq, not_true_eq_false, letter, nonempty, or_false, false_or]
  exact (inRange.trans (by decide)).ne

/-! ## Scanning a group -/

/-- The loop of `check` over keys with their values; undefined where it returns a
key. -/
def scan (self : CheckState) (entries : List (ByteString × ByteString)) : Option CheckState :=
  entries.foldlM (fun state entry => state.checkEntry entry.1 entry.2) self

theorem scan_append (self : CheckState) (front back : List (ByteString × ByteString)) :
    self.scan (front ++ back) = (self.scan front).bind fun next => next.scan back := by
  rw [scan, List.foldlM_append]
  rfl

theorem scan_cons (self : CheckState) (entry : ByteString × ByteString)
    (rest : List (ByteString × ByteString)) :
    self.scan (entry :: rest) =
      (self.checkEntry entry.1 entry.2).bind fun next => next.scan rest := by
  rw [scan, List.foldlM_cons]
  rfl

/-- The loop returns no key if the scan gets through. -/
theorem checkEntries_eq_none {self : CheckState} {entries : List (ByteString × Vv)}
    (through : (self.scan (entries.map fun entry => (entry.1, entry.2.value))).isSome = true) :
    self.checkEntries entries = none := by
  induction entries generalizing self with
  | nil => rfl
  | cons entry rest ih =>
      obtain ⟨key, cell⟩ := entry
      rw [List.map_cons, scan_cons] at through
      rw [checkEntries]
      cases next : self.checkEntry key cell.value with
      | none =>
          rw [next] at through
          contradiction
      | some state =>
          rw [next] at through
          exact ih through

/-- Consecutive value keys with one value. -/
def run (gid first count : Nat) (value : ByteString) : List (ByteString × ByteString) :=
  (List.range' first count).map fun vid => (makeValueKey gid vid, value)

theorem run_succ (gid first count : Nat) (value : ByteString) :
    run gid first (count + 1) value =
      (makeValueKey gid first, value) :: run gid (first + 1) count value := by
  rw [run, List.range'_succ, List.map_cons]
  rfl

/-- A run at the expected index with the expected value gets through. -/
theorem scan_run {self : CheckState} {gid count : Nat} {value : ByteString}
    (inGroup : self.InGroup gid) (nonempty : value ≠ [])
    (expected : self.expectedValue = [] ∨ self.expectedValue = value)
    (inRange : self.expectedIndex + count ≤ maxSequenceLength) :
    self.scan (run gid self.expectedIndex count value) = some { self with
      expectedIndex := self.expectedIndex + count
      expectedValue := if count = 0 then self.expectedValue else value } := by
  induction count generalizing self with
  | zero => rfl
  | succ count ih =>
      have first : self.checkEntry (makeValueKey gid self.expectedIndex) value =
          some { self with expectedIndex := self.expectedIndex + 1, expectedValue := value } := by
        rw [checkEntry_value inGroup (by omega) nonempty, checkIndex, if_neg (by simp)]
        simp only [Option.bind_some, checkValue]
        rw [if_neg]
        rintro ⟨known, different⟩
        exact different (expected.resolve_left known).symm
      rw [run_succ, scan_cons, first, Option.bind_some]
      have rest := @ih { self with
        expectedIndex := self.expectedIndex + 1, expectedValue := value } inGroup (Or.inr rfl)
        (by dsimp only; omega)
      rw [rest]
      simp only [ite_self, if_neg (Nat.succ_ne_zero count), Nat.add_right_comm, Nat.add_assoc]

/-- Behind the beginning of a locked group, a run at or behind the expected index
gets through. -/
theorem scan_old_run {self : CheckState} {gid first count : Nat} {old : ByteString}
    (inGroup : self.InGroup gid) (nonempty : old ≠ []) (locked : self.lockState = .lockedStart)
    (behind : self.expectedIndex ≤ first) (inRange : first + count ≤ maxSequenceLength) :
    ∃ next, self.scan (run gid first count old) = some next ∧
      next.lastGroup = groupPrefix gid := by
  cases count with
  | zero => exact ⟨self, rfl, inGroup.1⟩
  | succ count =>
      obtain ⟨next, firstEq, nextGroup, nextIndex, nextValue⟩ : ∃ next : CheckState,
          self.checkEntry (makeValueKey gid first) old = some next ∧ next.InGroup gid ∧
            next.expectedIndex = first + 1 ∧ next.expectedValue = old := by
        rw [checkEntry_value inGroup (by omega) nonempty, checkIndex]
        split
        · -- the gap
          rw [if_neg (by simp [locked]; omega)]
          refine ⟨{ self with
            lockState := .lockedRest, expectedIndex := first + 1, expectedValue := old }, ?_,
            inGroup, rfl, rfl⟩
          simp [checkValue]
        · rename_i same
          obtain rfl := not_not.mp same
          rw [Option.bind_some, checkValue]
          split
          · rw [if_neg (by simp [locked])]
            exact ⟨_, rfl, inGroup, rfl, rfl⟩
          · exact ⟨_, rfl, inGroup, rfl, rfl⟩
      rw [run_succ, scan_cons, firstEq, Option.bind_some]
      have rest := scan_run nextGroup nonempty (Or.inr nextValue)
        (show next.expectedIndex + count ≤ maxSequenceLength by omega)
      rw [nextIndex] at rest
      exact ⟨_, rest, nextGroup.1⟩

end CheckState

end DoomDraft.Lockseq
