import DoomDraft.Foundation.Unicode

/-!
# Cutting strings of code units

A string of code units is well formed if it has no surrogate outside a pair.  A
string that is not cut within a pair is encoded part by part, and a well-formed
string has one byte for each ASCII unit, two or three for the other units of the
basic plane, and two for each half of a pair.
-/

namespace DoomDraft

/-- Every surrogate of the string is part of a pair. -/
def WellPaired (s : List CodeUnit) : Prop :=
  ∀ c ∈ codePoints s, ¬ IsSurrogate c

instance (s : List CodeUnit) : Decidable (WellPaired s) :=
  List.decidableBAll (fun c => ¬ IsSurrogate c) (codePoints s)

/-- The end of the first string and the start of the second one are a pair. -/
def Joined (first second : List CodeUnit) : Prop :=
  (∃ u ∈ first.getLast?, IsLeading u) ∧ ∃ v ∈ second.head?, IsTrailing v

instance (first second : List CodeUnit) : Decidable (Joined first second) :=
  decidable_of_iff (first.getLast?.any (fun u => IsLeading u) = true ∧
    second.head?.any (fun v => IsTrailing v) = true) <| by
      simp only [Option.any_eq_true, decide_eq_true_eq, Option.mem_def, Joined]

/-- How many bytes a code unit takes in a well-formed string. -/
def unitWidth (u : CodeUnit) : Nat :=
  if u.val < 0x80 then 1
  else if u.val < 0x800 ∨ IsLeading u ∨ IsTrailing u then 2
  else 3

/-- How many bytes the units of a string take, were it well formed. -/
def width (s : List CodeUnit) : Nat :=
  (s.map unitWidth).sum

theorem not_isTrailing_of_isLeading {u : CodeUnit} (leading : IsLeading u) : ¬ IsTrailing u := by
  simp only [IsLeading, IsTrailing] at leading ⊢
  omega

/-! ## Code points of parts -/

theorem codePoints_append {first second : List CodeUnit} (apart : ¬ Joined first second) :
    codePoints (first ++ second) = codePoints first ++ codePoints second := by
  induction first using codePoints.induct with
  | case1 => rfl
  | case2 u =>
      cases second with
      | nil => rfl
      | cons v rest =>
          have noPair : ¬ (IsLeading u ∧ IsTrailing v) := by
            rintro ⟨leading, trailing⟩
            exact apart ⟨⟨u, rfl, leading⟩, v, rfl, trailing⟩
          simp only [List.singleton_append, codePoints, dif_neg noPair]
  | case3 u v rest pair ih =>
      have apartRest : ¬ Joined rest second := by
        rintro ⟨⟨last, isLast, leading⟩, head⟩
        refine apart ⟨⟨last, ?_, leading⟩, head⟩
        rw [Option.mem_def] at isLast
        rw [List.getLast?_cons_cons, List.getLast?_cons, isLast]
        rfl
      simp only [List.cons_append, codePoints, dif_pos pair, ih apartRest]
  | case4 u v rest noPair ih =>
      have apartRest : ¬ Joined (v :: rest) second := by
        rintro ⟨⟨last, isLast, leading⟩, head⟩
        exact apart ⟨⟨last, by rwa [List.getLast?_cons_cons], leading⟩, head⟩
      have restPaired := ih apartRest
      simp only [List.cons_append, codePoints, dif_neg noPair] at restPaired ⊢
      rw [restPaired]

theorem toUtf8_append {first second : List CodeUnit} (apart : ¬ Joined first second) :
    toUtf8 (first ++ second) = toUtf8 first ++ toUtf8 second := by
  rw [toUtf8, codePoints_append apart, List.flatMap_append]
  rfl

theorem wellPaired_append_iff {first second : List CodeUnit} (apart : ¬ Joined first second) :
    WellPaired (first ++ second) ↔ WellPaired first ∧ WellPaired second := by
  simp only [WellPaired, codePoints_append apart, List.forall_mem_append]

/-- A well-formed text that is cut outside of its pairs. -/
theorem WellPaired.cut {first second : List CodeUnit} (wellPaired : WellPaired (first ++ second))
    (apart : ¬ Joined first second) :
    WellPaired first ∧ WellPaired second ∧
      toUtf8 (first ++ second) = toUtf8 first ++ toUtf8 second := by
  obtain ⟨firstFormed, secondFormed⟩ := (wellPaired_append_iff apart).mp wellPaired
  exact ⟨firstFormed, secondFormed, toUtf8_append apart⟩

theorem isSurrogate_castLE_iff (u : CodeUnit) :
    IsSurrogate (u.castLE (by decide)) ↔ IsLeading u ∨ IsTrailing u := by
  simp only [IsSurrogate, IsLeading, IsTrailing, Fin.val_castLE]
  omega

theorem le_val_pairPoint {u v : CodeUnit} (leading : IsLeading u) (trailing : IsTrailing v) :
    0x10000 ≤ (pairPoint u v leading trailing).val := by
  unfold pairPoint
  dsimp only
  omega

theorem not_isSurrogate_pairPoint {u v : CodeUnit} (leading : IsLeading u)
    (trailing : IsTrailing v) : ¬ IsSurrogate (pairPoint u v leading trailing) := by
  rintro ⟨-, small⟩
  have large := le_val_pairPoint leading trailing
  omega

theorem wellPaired_singleton_iff (u : CodeUnit) :
    WellPaired [u] ↔ ¬ (IsLeading u ∨ IsTrailing u) := by
  simp only [WellPaired, codePoints, List.forall_mem_singleton, isSurrogate_castLE_iff]

theorem wellPaired_cons_iff_of_pair {u v : CodeUnit} (pair : IsLeading u ∧ IsTrailing v)
    (rest : List CodeUnit) : WellPaired (u :: v :: rest) ↔ WellPaired rest := by
  simp only [WellPaired, codePoints, dif_pos pair, List.forall_mem_cons,
    not_isSurrogate_pairPoint pair.1 pair.2, not_false_eq_true, true_and]

theorem wellPaired_cons_iff {u v : CodeUnit} (noPair : ¬ (IsLeading u ∧ IsTrailing v))
    (rest : List CodeUnit) :
    WellPaired (u :: v :: rest) ↔ ¬ (IsLeading u ∨ IsTrailing u) ∧ WellPaired (v :: rest) := by
  simp only [WellPaired, codePoints, dif_neg noPair, List.forall_mem_cons, isSurrogate_castLE_iff]

/-- A well-formed string does not end within a pair. -/
theorem WellPaired.not_isLeading_of_getLast? {s : List CodeUnit} (wellPaired : WellPaired s)
    {u : CodeUnit} (last : u ∈ s.getLast?) : ¬ IsLeading u := by
  induction s using codePoints.induct with
  | case1 => simp at last
  | case2 v =>
      rw [List.getLast?_singleton, Option.mem_some_iff] at last
      subst last
      exact fun leading => (wellPaired_singleton_iff v).mp wellPaired (Or.inl leading)
  | case3 v w rest pair ih =>
      rw [wellPaired_cons_iff_of_pair pair] at wellPaired
      rw [List.getLast?_cons_cons, List.getLast?_cons, Option.mem_some_iff] at last
      cases tail : rest.getLast? with
      | none =>
          rw [tail] at last
          obtain rfl : w = u := last
          exact fun leading => not_isTrailing_of_isLeading leading pair.2
      | some x =>
          rw [tail] at last
          obtain rfl : x = u := last
          exact ih wellPaired tail
  | case4 v w rest noPair ih =>
      rw [wellPaired_cons_iff noPair] at wellPaired
      rw [List.getLast?_cons_cons] at last
      exact ih wellPaired.2 last

/-- A well-formed string does not start within a pair. -/
theorem WellPaired.not_isTrailing_of_head? {s : List CodeUnit} (wellPaired : WellPaired s)
    {v : CodeUnit} (first : v ∈ s.head?) : ¬ IsTrailing v := by
  cases s using codePoints.fun_cases with
  | case1 => simp at first
  | case2 u =>
      rw [List.head?_cons, Option.mem_some_iff] at first
      subst first
      exact fun trailing => (wellPaired_singleton_iff u).mp wellPaired (Or.inr trailing)
  | case3 u w rest pair =>
      rw [List.head?_cons, Option.mem_some_iff] at first
      subst first
      exact not_isTrailing_of_isLeading pair.1
  | case4 u w rest noPair =>
      rw [List.head?_cons, Option.mem_some_iff] at first
      subst first
      rw [wellPaired_cons_iff noPair] at wellPaired
      exact fun trailing => wellPaired.1 (Or.inr trailing)

theorem WellPaired.not_joined_left {first second : List CodeUnit} (wellPaired : WellPaired first) :
    ¬ Joined first second := by
  rintro ⟨⟨u, last, leading⟩, -⟩
  exact wellPaired.not_isLeading_of_getLast? last leading

/-- A cut beside ASCII is not within a pair. -/
theorem not_joined_of_ascii {middle : List CodeUnit} (someUnit : middle ≠ [])
    (ascii : ∀ u ∈ middle, u.val < 0x80) (first second : List CodeUnit) :
    ¬ Joined first (middle ++ second) ∧ ¬ Joined (first ++ middle) second := by
  constructor
  · rintro ⟨-, v, head, trailing⟩
    rw [List.head?_append_of_ne_nil _ someUnit] at head
    have small := ascii v (List.mem_of_mem_head? head)
    have large := trailing.1
    omega
  · rintro ⟨⟨u, last, leading⟩, -⟩
    rw [List.getLast?_append_of_ne_nil _ someUnit] at last
    have small := ascii u (List.mem_of_mem_getLast? last)
    have large := leading.1
    omega

/-! ## Bytes -/

@[simp]
theorem width_nil : width [] = 0 :=
  rfl

theorem width_cons (u : CodeUnit) (s : List CodeUnit) : width (u :: s) = unitWidth u + width s := by
  simp [width]

theorem width_append (first second : List CodeUnit) :
    width (first ++ second) = width first + width second := by
  simp [width]

theorem length_utf8_pairPoint {u v : CodeUnit} (leading : IsLeading u) (trailing : IsTrailing v) :
    (utf8Replacing (pairPoint u v leading trailing)).length = unitWidth u + unitWidth v := by
  have large := le_val_pairPoint leading trailing
  have bytes : (utf8Replacing (pairPoint u v leading trailing)).length = 4 := by
    rw [utf8Replacing, if_neg (not_isSurrogate_pairPoint leading trailing), utf8,
      if_neg (by omega), if_neg (by omega), if_neg (by omega)]
    rfl
  have first : unitWidth u = 2 := by
    rw [unitWidth, if_neg (by have := leading.1; omega), if_pos (Or.inr (Or.inl leading))]
  have second : unitWidth v = 2 := by
    rw [unitWidth, if_neg (by have := trailing.1; omega), if_pos (Or.inr (Or.inr trailing))]
  rw [bytes, first, second]

theorem length_utf8Replacing_castLE (u : CodeUnit) :
    (utf8Replacing (u.castLE (by decide))).length =
      unitWidth u + if IsSurrogate (u.castLE (by decide)) then 1 else 0 := by
  have bound := u.isLt
  rw [utf8Replacing, unitWidth]
  by_cases surrogate : IsLeading u ∨ IsTrailing u
  · have notAscii : ¬ u.val < 0x80 := by
      rcases surrogate with leading | trailing
      · have := leading.1
        omega
      · have := trailing.1
        omega
    rw [if_pos ((isSurrogate_castLE_iff u).mpr surrogate),
      if_pos ((isSurrogate_castLE_iff u).mpr surrogate), if_neg notAscii, if_pos (Or.inr surrogate)]
    rfl
  · rw [if_neg (mt (isSurrogate_castLE_iff u).mp surrogate),
      if_neg (mt (isSurrogate_castLE_iff u).mp surrogate), utf8]
    simp only [Fin.val_castLE, surrogate, or_false, bound, if_true]
    split_ifs <;> rfl

/-- The replacement of a lone surrogate takes one byte more than its place in a
pair. -/
theorem length_toUtf8 (s : List CodeUnit) :
    (toUtf8 s).length = width s + (codePoints s).countP fun c => IsSurrogate c := by
  induction s using codePoints.induct with
  | case1 => rfl
  | case2 u =>
      simp only [toUtf8, codePoints, List.flatMap_cons, List.flatMap_nil, List.append_nil,
        length_utf8Replacing_castLE, width_cons, width_nil, List.countP_cons, List.countP_nil,
        decide_eq_true_eq]
      omega
  | case3 u v rest pair ih =>
      have noSurrogate := not_isSurrogate_pairPoint pair.1 pair.2
      rw [toUtf8] at ih
      simp only [toUtf8, codePoints, dif_pos pair, List.flatMap_cons, List.length_append,
        length_utf8_pairPoint, width_cons, List.countP_cons, decide_eq_true_eq, noSurrogate,
        if_false, ih]
      omega
  | case4 u v rest noPair ih =>
      rw [toUtf8] at ih
      rw [toUtf8, codePoints, dif_neg noPair, List.flatMap_cons, List.length_append,
        length_utf8Replacing_castLE, ih, List.countP_cons, width_cons u]
      simp only [decide_eq_true_eq]
      omega

theorem wellPaired_iff_length (s : List CodeUnit) :
    WellPaired s ↔ (toUtf8 s).length = width s := by
  rw [length_toUtf8]
  simp [WellPaired, List.countP_eq_zero]

theorem unitWidth_pos (u : CodeUnit) : 0 < unitWidth u := by
  rw [unitWidth]
  split_ifs <;> omega

/-- Every code unit takes a byte at least. -/
theorem length_le_width (s : List CodeUnit) : s.length ≤ width s := by
  induction s with
  | nil => rfl
  | cons u s ih =>
      have positive := unitWidth_pos u
      rw [width_cons, List.length_cons]
      omega

theorem length_le_length_toUtf8 (s : List CodeUnit) : s.length ≤ (toUtf8 s).length := by
  rw [length_toUtf8]
  exact (length_le_width s).trans (Nat.le_add_right _ _)

/-- The encoded string is as long as its parts are wide. -/
theorem WellPaired.length_toUtf8_append {first second : List CodeUnit}
    (wellPaired : WellPaired (first ++ second)) :
    (toUtf8 (first ++ second)).length = width first + width second := by
  rw [(wellPaired_iff_length _).mp wellPaired, width_append]

/-- Only ASCII has as many bytes as code units. -/
theorem width_eq_length_iff (s : List CodeUnit) : width s = s.length ↔ ∀ u ∈ s, u.val < 0x80 := by
  induction s with
  | nil => simp
  | cons u s ih =>
      have least := length_le_width s
      have single : unitWidth u = 1 ↔ u.val < 0x80 := by
        rw [unitWidth]
        split_ifs <;> simp_all
      have positive := unitWidth_pos u
      rw [width_cons, List.length_cons, List.forall_mem_cons, ← ih, ← single]
      omega

end DoomDraft
