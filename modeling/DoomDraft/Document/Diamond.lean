import DoomDraft.Document.Operation

/-!
# The diamond property

Two operations on one text, each transformed against the other, lead to one
text whichever goes first, unless both insert at the same position.  Each case
cuts the text into the segments that the two operations touch.
-/

namespace DoomDraft.Document

universe u

variable {α : Type u}

/-- Both orders of two operations lead to the same text. -/
def Diamond (text : List α) (a b : DocOp α) : Prop :=
  applyOp (applyOp text a) (transform b a) = applyOp (applyOp text b) (transform a b)

/-- Both operations insert at the same position. -/
def SamePlace : DocOp α → DocOp α → Prop
  | .insert pos _, .insert otherPos _ => pos = otherPos
  | _, _ => False

theorem SamePlace.exists_insert {a b : DocOp α} (same : SamePlace a b) :
    ∃ pos t w, a = .insert pos t ∧ b = .insert pos w := by
  cases a with
  | insert p t =>
      cases b with
      | insert q w =>
          obtain rfl : p = q := same
          exact ⟨p, t, w, rfl, rfl⟩
      | delete q n => exact absurd same id
  | delete p m => exact absurd same id

theorem Diamond.symm {text : List α} {a b : DocOp α} (diamond : Diamond text a b) :
    Diamond text b a :=
  Eq.symm diamond

theorem Diamond.of_merged {text : List α} {a b : DocOp α} (merged : List α)
    (left : applyOp (applyOp text a) (transform b a) = merged)
    (right : applyOp (applyOp text b) (transform a b) = merged) : Diamond text a b :=
  left.trans right.symm

/-! ## Segments -/

theorem exists_segments {text : List α} {pos : Nat} (le : pos ≤ text.length) :
    ∃ x y, text = x ++ y ∧ x.length = pos :=
  ⟨text.take pos, text.drop pos, (List.take_append_drop pos text).symm,
    List.length_take_of_le le⟩

theorem applyOp_insert_at {x y : List α} {pos : Nat} (t : List α) (posEq : x.length = pos) :
    applyOp (x ++ y) (.insert pos t) = x ++ (t ++ y) := by
  subst posEq
  simp

theorem applyOp_delete_at {x d y : List α} {pos len : Nat} (posEq : x.length = pos)
    (lenEq : d.length = len) : applyOp (x ++ (d ++ y)) (.delete pos len) = x ++ y := by
  subst posEq lenEq
  simp [List.drop_append]

theorem applyOp_delete_zero (text : List α) (pos : Nat) : applyOp text (.delete pos 0) = text := by
  simp

/-! ## Insertions -/

theorem diamond_insert_insert {text t w : List α} {p q : Nat} (less : p < q)
    (le : q ≤ text.length) : Diamond text (.insert p t) (.insert q w) := by
  obtain ⟨x, rest, rfl, xLength⟩ := exists_segments (less.le.trans le)
  rw [List.length_append] at le
  obtain ⟨y, z, rfl, yLength⟩ : ∃ y z, rest = y ++ z ∧ y.length = q - p :=
    exists_segments (by omega)
  have after : transform (.insert q w) (.insert p t) = .insert (q + t.length) w := by
    simp only [transform, if_pos less.le]
  have before : transform (.insert p t) (.insert q w) = .insert p t := by
    simp only [transform, if_neg (Nat.not_le.mpr less)]
  apply Diamond.of_merged (x ++ (t ++ (y ++ (w ++ z))))
  · rw [after, applyOp_insert_at t xLength]
    have place : (x ++ (t ++ y)).length = q + t.length := by
      simp only [List.length_append]
      omega
    simpa using applyOp_insert_at (y := z) w place
  · have place : (x ++ y).length = q := by
      simp only [List.length_append]
      omega
    have inserted : applyOp (x ++ (y ++ z)) (.insert q w) = x ++ (y ++ (w ++ z)) := by
      simpa using applyOp_insert_at (y := z) w place
    rw [before, inserted, applyOp_insert_at t xLength]

/-! ## An insertion and a deletion -/

/-- The deletion swallows the insertion. -/
theorem diamond_insert_inside {text t : List α} {p q n : Nat} (after : q < p) (inside : p < q + n)
    (pLe : p ≤ text.length) (qLe : q + n ≤ text.length) :
    Diamond text (.insert p t) (.delete q n) := by
  obtain ⟨x, rest, rfl, xLength⟩ := exists_segments (after.le.trans pLe)
  rw [List.length_append] at qLe
  obtain ⟨d, rest, rfl, dLength⟩ : ∃ d z, rest = d ++ z ∧ d.length = p - q :=
    exists_segments (by omega)
  rw [List.length_append] at qLe
  obtain ⟨e, z, rfl, eLength⟩ : ∃ e z, rest = e ++ z ∧ e.length = q + n - p :=
    exists_segments (by omega)
  have grown : transform (.delete q n) (.insert p t) = .delete q (n + t.length) := by
    simp only [transform, if_neg (Nat.not_le.mpr inside), if_neg (Nat.not_le.mpr after)]
  have gone : transform (.insert p t) (.delete q n) = .insert 0 [] := by
    simp only [transform, if_neg (Nat.not_le.mpr after), if_neg (Nat.not_le.mpr inside)]
  apply Diamond.of_merged (x ++ z)
  · have place : (x ++ d).length = p := by
      simp only [List.length_append]
      omega
    have inserted : applyOp (x ++ (d ++ (e ++ z))) (.insert p t) =
        x ++ ((d ++ (t ++ e)) ++ z) := by
      simpa using applyOp_insert_at (y := e ++ z) t place
    have width : (d ++ (t ++ e)).length = n + t.length := by
      simp only [List.length_append]
      omega
    rw [grown, inserted, applyOp_delete_at xLength width]
  · have width : (d ++ e).length = n := by
      simp only [List.length_append]
      omega
    have deleted : applyOp (x ++ (d ++ (e ++ z))) (.delete q n) = x ++ z := by
      simpa using applyOp_delete_at (y := z) xLength width
    rw [gone, deleted]
    simp

theorem diamond_insert_behind {text t : List α} {p q n : Nat} (after : q < p) (behind : q + n ≤ p)
    (pLe : p ≤ text.length) (qLe : q + n ≤ text.length) :
    Diamond text (.insert p t) (.delete q n) := by
  obtain ⟨x, rest, rfl, xLength⟩ := exists_segments (after.le.trans pLe)
  rw [List.length_append] at qLe pLe
  obtain ⟨d, rest, rfl, dLength⟩ : ∃ d z, rest = d ++ z ∧ d.length = n :=
    exists_segments (by omega)
  rw [List.length_append] at pLe
  obtain ⟨y, z, rfl, yLength⟩ : ∃ y z, rest = y ++ z ∧ y.length = p - q - n :=
    exists_segments (by omega)
  have same : transform (.delete q n) (.insert p t) = .delete q n := by
    simp only [transform, if_pos behind]
  have left : transform (.insert p t) (.delete q n) = .insert (p - n) t := by
    simp only [transform, if_neg (Nat.not_le.mpr after), if_pos behind]
  apply Diamond.of_merged (x ++ (y ++ (t ++ z)))
  · have place : (x ++ (d ++ y)).length = p := by
      simp only [List.length_append]
      omega
    have inserted : applyOp (x ++ (d ++ (y ++ z))) (.insert p t) =
        x ++ (d ++ (y ++ (t ++ z))) := by
      simpa using applyOp_insert_at (y := z) t place
    rw [same, inserted, applyOp_delete_at xLength dLength]
  · have place : (x ++ y).length = p - n := by
      simp only [List.length_append]
      omega
    rw [left, applyOp_delete_at xLength dLength]
    simpa using applyOp_insert_at (y := z) t place

theorem diamond_insert_before {text t : List α} {p q n : Nat} (before : p ≤ q)
    (pLe : p ≤ text.length) (qLe : q + n ≤ text.length) :
    Diamond text (.insert p t) (.delete q n) := by
  obtain ⟨x, rest, rfl, xLength⟩ := exists_segments pLe
  rw [List.length_append] at qLe
  obtain ⟨y, rest, rfl, yLength⟩ : ∃ y z, rest = y ++ z ∧ y.length = q - p :=
    exists_segments (by omega)
  rw [List.length_append] at qLe
  obtain ⟨d, z, rfl, dLength⟩ : ∃ d z, rest = d ++ z ∧ d.length = n :=
    exists_segments (by omega)
  have same : transform (.insert p t) (.delete q n) = .insert p t := by
    simp only [transform, if_pos before]
  apply Diamond.of_merged (x ++ (t ++ (y ++ z)))
  · rw [applyOp_insert_at t xLength]
    have place : (x ++ (t ++ y)).length = q + t.length := by
      simp only [List.length_append]
      omega
    rcases Nat.lt_or_ge p (q + n) with proper | nothing
    · have right : transform (.delete q n) (.insert p t) = .delete (q + t.length) n := by
        simp only [transform, if_neg (Nat.not_le.mpr proper), if_pos before]
      rw [right]
      simpa using applyOp_delete_at (y := z) place dLength
    · -- The deletion is empty and stays where it is.
      obtain rfl : n = 0 := by omega
      have unchanged : transform (.delete q 0) (.insert p t) = .delete q 0 := by
        simp only [transform, if_pos nothing]
      rw [unchanged, applyOp_delete_zero, List.length_eq_zero_iff.mp dLength, List.nil_append]
  · have place : (x ++ y).length = q := by
      simp only [List.length_append]
      omega
    have deleted : applyOp (x ++ (y ++ (d ++ z))) (.delete q n) = x ++ (y ++ z) := by
      simpa using applyOp_delete_at (y := z) place dLength
    rw [same, deleted, applyOp_insert_at t xLength]

theorem diamond_insert_delete {text t : List α} {p q n : Nat} (pLe : p ≤ text.length)
    (qLe : q + n ≤ text.length) : Diamond text (.insert p t) (.delete q n) := by
  rcases Nat.lt_or_ge q p with after | before
  · rcases Nat.lt_or_ge p (q + n) with inside | behind
    · exact diamond_insert_inside after inside pLe qLe
    · exact diamond_insert_behind after behind pLe qLe
  · exact diamond_insert_before before pLe qLe

/-! ## Deletions -/

theorem diamond_delete_before {text : List α} {p m q n : Nat} (before : p + m ≤ q)
    (qLe : q + n ≤ text.length) : Diamond text (.delete p m) (.delete q n) := by
  obtain ⟨x, rest, rfl, xLength⟩ : ∃ x z, text = x ++ z ∧ x.length = p :=
    exists_segments (by omega)
  rw [List.length_append] at qLe
  obtain ⟨d, rest, rfl, dLength⟩ : ∃ d z, rest = d ++ z ∧ d.length = m :=
    exists_segments (by omega)
  rw [List.length_append] at qLe
  obtain ⟨y, rest, rfl, yLength⟩ : ∃ y z, rest = y ++ z ∧ y.length = q - p - m :=
    exists_segments (by omega)
  rw [List.length_append] at qLe
  obtain ⟨e, z, rfl, eLength⟩ : ∃ e z, rest = e ++ z ∧ e.length = n := exists_segments (by omega)
  have same : transform (α := α) (.delete p m) (.delete q n) = .delete p m := by
    simp only [transform, if_pos before]
  have place : (x ++ (d ++ y)).length = q := by
    simp only [List.length_append]
    omega
  have deleted : applyOp (x ++ (d ++ (y ++ (e ++ z)))) (.delete q n) = x ++ (d ++ (y ++ z)) := by
    simpa using applyOp_delete_at (y := z) place eLength
  apply Diamond.of_merged (x ++ (y ++ z))
  · rw [applyOp_delete_at xLength dLength]
    rcases Nat.lt_or_ge p (q + n) with proper | nothing
    · have left : transform (α := α) (.delete q n) (.delete p m) = .delete (q - m) n := by
        simp only [transform, if_neg (Nat.not_le.mpr proper), if_pos before]
      have moved : (x ++ y).length = q - m := by
        simp only [List.length_append]
        omega
      rw [left]
      simpa using applyOp_delete_at (y := z) moved eLength
    · -- Both deletions are empty.
      obtain rfl : n = 0 := by omega
      have unchanged : transform (α := α) (.delete q 0) (.delete p m) = .delete q 0 := by
        simp only [transform, if_pos nothing]
      rw [unchanged, applyOp_delete_zero, List.length_eq_zero_iff.mp eLength, List.nil_append]
  · rw [same, deleted, applyOp_delete_at xLength dLength]

theorem diamond_delete_within {text : List α} {p m q n : Nat} (start : p ≤ q) (overlap : q < p + m)
    (within : q + n ≤ p + m) (pLe : p + m ≤ text.length) :
    Diamond text (.delete p m) (.delete q n) := by
  obtain ⟨x, rest, rfl, xLength⟩ : ∃ x z, text = x ++ z ∧ x.length = p :=
    exists_segments (by omega)
  rw [List.length_append] at pLe
  obtain ⟨d, rest, rfl, dLength⟩ : ∃ d z, rest = d ++ z ∧ d.length = q - p :=
    exists_segments (by omega)
  rw [List.length_append] at pLe
  obtain ⟨e, rest, rfl, eLength⟩ : ∃ e z, rest = e ++ z ∧ e.length = n :=
    exists_segments (by omega)
  rw [List.length_append] at pLe
  obtain ⟨f, z, rfl, fLength⟩ : ∃ f z, rest = f ++ z ∧ f.length = p + m - q - n :=
    exists_segments (by omega)
  apply Diamond.of_merged (x ++ z)
  · have width : (d ++ (e ++ f)).length = m := by
      simp only [List.length_append]
      omega
    have deleted : applyOp (x ++ (d ++ (e ++ (f ++ z)))) (.delete p m) = x ++ z := by
      simpa using applyOp_delete_at (y := z) xLength width
    rw [deleted]
    rcases Nat.lt_or_ge p (q + n) with proper | nothing
    · have gone : transform (α := α) (.delete q n) (.delete p m) = .delete 0 0 := by
        simp only [transform, if_neg (Nat.not_le.mpr proper), if_neg (Nat.not_le.mpr overlap),
          if_pos (And.intro start within)]
      rw [gone, applyOp_delete_zero]
    · obtain rfl : n = 0 := by omega
      have unchanged : transform (α := α) (.delete q 0) (.delete p m) = .delete q 0 := by
        simp only [transform, if_pos nothing]
      rw [unchanged, applyOp_delete_zero]
  · have place : (x ++ d).length = q := by
      simp only [List.length_append]
      omega
    have deleted : applyOp (x ++ (d ++ (e ++ (f ++ z)))) (.delete q n) = x ++ ((d ++ f) ++ z) := by
      simpa using applyOp_delete_at (y := f ++ z) place eLength
    have width : (d ++ f).length = m - n := by
      simp only [List.length_append]
      omega
    rw [deleted]
    -- What is left of the outer deletion covers the two outer segments.
    have shrunk : transform (α := α) (.delete p m) (.delete q n) = .delete p (m - n) ∨
        m - n = 0 ∧ transform (α := α) (.delete p m) (.delete q n) = .delete 0 0 := by
      simp only [transform, if_neg (Nat.not_le.mpr overlap)]
      split_ifs with nothing equal
      · obtain rfl : n = 0 := by omega
        exact Or.inl rfl
      · exact Or.inr ⟨by omega, rfl⟩
      · exact Or.inl rfl
      · omega
      · omega
    rcases shrunk with rest | ⟨empty, gone⟩
    · rw [rest, applyOp_delete_at xLength width]
    · rw [empty] at width
      rw [gone, applyOp_delete_zero, List.length_eq_zero_iff.mp width, List.nil_append]

theorem diamond_delete_overlap {text : List α} {p m q n : Nat} (start : p < q)
    (overlap : q < p + m) (beyond : p + m < q + n) (qLe : q + n ≤ text.length) :
    Diamond text (.delete p m) (.delete q n) := by
  obtain ⟨x, rest, rfl, xLength⟩ : ∃ x z, text = x ++ z ∧ x.length = p :=
    exists_segments (by omega)
  rw [List.length_append] at qLe
  obtain ⟨d, rest, rfl, dLength⟩ : ∃ d z, rest = d ++ z ∧ d.length = q - p :=
    exists_segments (by omega)
  rw [List.length_append] at qLe
  obtain ⟨e, rest, rfl, eLength⟩ : ∃ e z, rest = e ++ z ∧ e.length = p + m - q :=
    exists_segments (by omega)
  rw [List.length_append] at qLe
  obtain ⟨f, z, rfl, fLength⟩ : ∃ f z, rest = f ++ z ∧ f.length = q + n - p - m :=
    exists_segments (by omega)
  apply Diamond.of_merged (x ++ z)
  · have width : (d ++ e).length = m := by
      simp only [List.length_append]
      omega
    have deleted : applyOp (x ++ (d ++ (e ++ (f ++ z)))) (.delete p m) = x ++ (f ++ z) := by
      simpa using applyOp_delete_at (y := f ++ z) xLength width
    have rest : transform (α := α) (.delete q n) (.delete p m) = .delete p (q + n - p - m) := by
      simp only [transform]
      split_ifs <;> first | rfl | omega
    rw [deleted, rest, applyOp_delete_at xLength fLength]
  · have place : (x ++ d).length = q := by
      simp only [List.length_append]
      omega
    have width : (e ++ f).length = n := by
      simp only [List.length_append]
      omega
    have deleted : applyOp (x ++ (d ++ (e ++ (f ++ z)))) (.delete q n) = x ++ (d ++ z) := by
      simpa using applyOp_delete_at (y := z) place width
    have rest : transform (α := α) (.delete p m) (.delete q n) = .delete p (q - p) := by
      simp only [transform]
      split_ifs <;> first | rfl | omega
    rw [deleted, rest, applyOp_delete_at xLength dLength]

theorem diamond_delete_delete_of_le {text : List α} {p m q n : Nat} (start : p ≤ q)
    (pLe : p + m ≤ text.length) (qLe : q + n ≤ text.length) :
    Diamond text (.delete p m) (.delete q n) := by
  rcases Nat.lt_or_ge q (p + m) with overlap | before
  · rcases Nat.lt_or_ge (p + m) (q + n) with beyond | within
    · rcases Nat.lt_or_eq_of_le start with later | rfl
      · exact diamond_delete_overlap later overlap beyond qLe
      · exact (diamond_delete_within le_rfl (overlap.trans beyond) beyond.le qLe).symm
    · exact diamond_delete_within start overlap within pLe
  · exact diamond_delete_before before qLe

/-! ## All pairs -/

/-- The diamond property of operations within the text. -/
theorem diamond_of_not_samePlace {text : List α} {a b : DocOp α} (aIn : a.InBounds text.length)
    (bIn : b.InBounds text.length) (apart : ¬ SamePlace a b) : Diamond text a b := by
  cases a with
  | insert p t =>
      cases b with
      | insert q w =>
          rcases Nat.lt_or_gt_of_ne apart with less | greater
          · exact diamond_insert_insert less bIn
          · exact (diamond_insert_insert greater aIn).symm
      | delete q n => exact diamond_insert_delete aIn bIn
  | delete p m =>
      cases b with
      | insert q w => exact (diamond_insert_delete bIn aIn).symm
      | delete q n =>
          rcases Nat.le_total p q with start | start
          · exact diamond_delete_delete_of_le start aIn bIn
          · exact (diamond_delete_delete_of_le start bIn aIn).symm

/-- A transformed operation is within the text that the other one leaves. -/
theorem transform_inBounds {text : List α} {a b : DocOp α} (aIn : a.InBounds text.length)
    (bIn : b.InBounds text.length) : (transform a b).InBounds (applyOp text b).length := by
  cases a with
  | insert p t =>
      cases b with
      | insert q w =>
          simp only [DocOp.InBounds] at aIn bIn
          simp only [transform, applyOp_insert, List.length_append, List.length_take,
            List.length_drop]
          split_ifs <;> simp only [DocOp.InBounds] <;> omega
      | delete q n =>
          simp only [DocOp.InBounds] at aIn bIn
          simp only [transform, applyOp_delete, List.length_append, List.length_take,
            List.length_drop]
          split_ifs <;> simp only [DocOp.InBounds] <;> omega
  | delete p m =>
      cases b with
      | insert q w =>
          simp only [DocOp.InBounds] at aIn bIn
          simp only [transform, applyOp_insert, List.length_append, List.length_take,
            List.length_drop]
          split_ifs <;> simp only [DocOp.InBounds] <;> omega
      | delete q n =>
          simp only [DocOp.InBounds] at aIn bIn
          simp only [transform, applyOp_delete, List.length_append, List.length_take,
            List.length_drop]
          split_ifs <;> simp only [DocOp.InBounds] <;> omega

/-! ## The exception -/

/-- Two insertions at one place lead to one text exactly when their texts
commute. -/
theorem diamond_samePlace_iff {text : List α} {p : Nat} (le : p ≤ text.length)
    (t w : List α) : Diamond text (.insert p t) (.insert p w) ↔ t ++ w = w ++ t := by
  obtain ⟨x, y, rfl, xLength⟩ := exists_segments le
  have moved : ∀ first second : List α,
      applyOp (applyOp (x ++ y) (.insert p first))
          (transform (.insert p second) (.insert p first)) =
        x ++ ((first ++ second) ++ y) := by
    intro first second
    have place : (x ++ first).length = p + first.length := by
      rw [List.length_append, xLength]
    simp only [transform, if_pos le_rfl]
    rw [applyOp_insert_at first xLength, ← List.append_assoc,
      applyOp_insert_at second place]
    simp
  rw [Diamond, moved t w, moved w t, List.append_cancel_left_eq, List.append_cancel_right_eq]

/-- The diamond property with its exact exception: operations within the text
lead to one text in either order unless they insert texts that do not commute
at the same position. -/
theorem diamond_iff {text : List α} {a b : DocOp α} (aIn : a.InBounds text.length)
    (bIn : b.InBounds text.length) :
    applyOp (applyOp text a) (transform b a) = applyOp (applyOp text b) (transform a b) ↔
      ¬ ∃ pos t w, a = .insert pos t ∧ b = .insert pos w ∧ t ++ w ≠ w ++ t := by
  constructor
  · rintro diamond ⟨pos, t, w, rfl, rfl, different⟩
    exact different ((diamond_samePlace_iff aIn t w).mp diamond)
  · intro noException
    by_cases same : SamePlace a b
    · obtain ⟨pos, t, w, rfl, rfl⟩ := same.exists_insert
      refine (diamond_samePlace_iff aIn t w).mpr ?_
      by_contra different
      exact noException ⟨pos, t, w, rfl, rfl, different⟩
    · exact diamond_of_not_samePlace aIn bIn same

/-- A deletion that swallows an insertion. -/
theorem diamond_iff_swallowed :
    applyOp (applyOp [1, 2, 3] (.insert 1 [7])) (transform (.delete 0 2) (.insert 1 [7])) =
        applyOp (applyOp [1, 2, 3] (.delete 0 2)) (transform (.insert 1 [7]) (.delete 0 2)) ↔
      ¬ ∃ pos, ∃ t w : List Nat, DocOp.insert 1 [7] = .insert pos t ∧
        DocOp.delete 0 2 = .insert pos w ∧ t ++ w ≠ w ++ t :=
  @diamond_iff Nat [1, 2, 3] (.insert 1 [7]) (.delete 0 2) (by decide) (by decide)

end DoomDraft.Document
