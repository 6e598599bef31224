import Mathlib.Algebra.Order.Group.Multiset
import Mathlib.Data.Multiset.Range
import Mathlib.Logic.Equiv.Basic

/-!
# Heaps in an array

A heap is an array of which each position but the first has a parent in front of
it.  The two loops that restore its order swap an element with its parent, or with
the least of its children, until the element is in its place.  Both are about any
shape of the tree and any key by which elements are compared.
-/

namespace DoomDraft

universe u v

/-- How the positions of an array form a tree. -/
structure HeapShape where
  parent : Nat → Nat
  firstChild : Nat → Nat
  /-- The end of the children, which may lie behind the array. -/
  lastChild : Nat → Nat
  parent_lt : ∀ i, 0 < i → parent i < i
  mem_children : ∀ i t, firstChild i ≤ t ∧ t < lastChild i ↔ 0 < t ∧ parent t = i

namespace HeapShape

variable {α : Type u} {κ : Type v}

/-- The cells of an array with two of them swapped. -/
def swapCells (es : Nat → α) (i j : Nat) : Nat → α :=
  fun t => es (Equiv.swap i j t)

/-- What is in the first `size` cells. -/
def contents (es : Nat → α) (size : Nat) : Multiset α :=
  (Multiset.range size).map es

section Loops

variable (shape : HeapShape) (before : α → α → Bool)

/-- Swap the element at a position with its parent while it comes before it. -/
def siftUp : Nat → (Nat → α) → Nat → Nat → α
  | 0, es, _ => es
  | fuel + 1, es, pos =>
      if pos ≠ 0 ∧ before (es pos) (es (shape.parent pos)) then
        siftUp fuel (swapCells es pos (shape.parent pos)) (shape.parent pos)
      else es

/-- The children of a position in an array of `size` elements. -/
def children (size pos : Nat) : List Nat :=
  List.range' (shape.firstChild pos)
    (min (shape.lastChild pos) size - shape.firstChild pos)

/-- The first of the least among the elements at `pos` and at `ts`. -/
def smallestOf (es : Nat → α) (pos : Nat) (ts : List Nat) : Nat :=
  ts.foldl (fun smallest t => if before (es t) (es smallest) then t else smallest) pos

/-- Swap the element at a position with its least child while that comes
before it. -/
def siftDown (size : Nat) : Nat → (Nat → α) → Nat → Nat → α
  | 0, es, _ => es
  | fuel + 1, es, pos =>
      let smallest := smallestOf before es pos (shape.children size pos)
      if smallest = pos then es
      else siftDown size fuel (swapCells es pos smallest) smallest

end Loops

/-! ## Swaps -/

@[simp]
theorem swapCells_left (es : Nat → α) (i j : Nat) : swapCells es i j i = es j := by
  simp [swapCells]

@[simp]
theorem swapCells_right (es : Nat → α) (i j : Nat) : swapCells es i j j = es i := by
  simp [swapCells]

theorem swapCells_of_ne {es : Nat → α} {i j t : Nat} (left : t ≠ i) (right : t ≠ j) :
    swapCells es i j t = es t := by
  rw [swapCells, Equiv.swap_apply_of_ne_of_ne left right]

theorem contents_swapCells {es : Nat → α} {size i j : Nat} (iLt : i < size) (jLt : j < size) :
    contents (swapCells es i j) size = contents es size := by
  have positions : (Multiset.range size).map (Equiv.swap i j) = Multiset.range size := by
    refine Multiset.Nodup.ext ?_ (Multiset.nodup_range size) |>.mpr fun t => ?_
    · exact (Multiset.nodup_range size).map (Equiv.swap i j).injective
    · rw [Multiset.mem_map, Multiset.mem_range]
      constructor
      · rintro ⟨s, within, rfl⟩
        rw [Multiset.mem_range] at within
        rw [Equiv.swap_apply_def]
        split
        · exact jLt
        · split
          · exact iLt
          · exact within
      · intro within
        refine ⟨Equiv.swap i j t, Multiset.mem_range.mpr ?_, Equiv.swap_apply_self i j t⟩
        rw [Equiv.swap_apply_def]
        split
        · exact jLt
        · split
          · exact iLt
          · exact within
  calc
    contents (swapCells es i j) size
        = ((Multiset.range size).map (Equiv.swap i j)).map es := by
          rw [Multiset.map_map]
          rfl
    _ = contents es size := by rw [positions, contents]

theorem mem_contents {es : Nat → α} {size : Nat} {a : α} :
    a ∈ contents es size ↔ ∃ i < size, es i = a := by
  simp [contents]

theorem contents_succ (es : Nat → α) (size : Nat) :
    contents es (size + 1) = es size ::ₘ contents es size := by
  simp [contents, Multiset.range_succ]

theorem contents_congr {es cells : Nat → α} {size : Nat} (same : ∀ i < size, es i = cells i) :
    contents es size = contents cells size :=
  Multiset.map_congr rfl fun i within => same i (Multiset.mem_range.mp within)

/-! ## Order -/

variable [LinearOrder κ] {shape : HeapShape} {before : α → α → Bool} {key : α → κ}
  {es : Nat → α} {size pos : Nat}

/-- Elements of the array are compared by their keys. -/
def Compares (before : α → α → Bool) (key : α → κ) (all : Multiset α) : Prop :=
  ∀ a ∈ all, ∀ b ∈ all, (before a b = true ↔ key a < key b)

/-- No element comes before its parent. -/
def Ordered (shape : HeapShape) (key : α → κ) (es : Nat → α) (size : Nat) : Prop :=
  ∀ i, 0 < i → i < size → key (es (shape.parent i)) ≤ key (es i)

/-- The first element is the least. -/
theorem Ordered.root_le (ordered : Ordered shape key es size) :
    ∀ i < size, key (es 0) ≤ key (es i) := by
  intro i
  induction i using Nat.strongRecOn with
  | ind i ih =>
      intro within
      rcases Nat.eq_zero_or_pos i with rfl | positive
      · exact le_rfl
      · have above := shape.parent_lt i positive
        exact (ih _ above (above.trans within)).trans (ordered i positive within)

theorem Compares.iff (compares : Compares before key (contents es size)) {i j : Nat}
    (iLt : i < size) (jLt : j < size) :
    before (es i) (es j) = true ↔ key (es i) < key (es j) :=
  compares _ (mem_contents.mpr ⟨i, iLt, rfl⟩) _ (mem_contents.mpr ⟨j, jLt, rfl⟩)

/-- Only the element at `pos` may come before its parent. -/
structure OrderedUpTo (shape : HeapShape) (key : α → κ) (es : Nat → α) (size pos : Nat) :
    Prop where
  others : ∀ i, 0 < i → i < size → i ≠ pos → key (es (shape.parent i)) ≤ key (es i)
  beyond : 0 < pos → ∀ i, 0 < i → i < size → shape.parent i = pos →
    key (es (shape.parent pos)) ≤ key (es i)

/-- Only the children of `pos` may come before their parent. -/
structure OrderedDownTo (shape : HeapShape) (key : α → κ) (es : Nat → α) (size pos : Nat) :
    Prop where
  others : ∀ i, 0 < i → i < size → shape.parent i ≠ pos → key (es (shape.parent i)) ≤ key (es i)
  beyond : 0 < pos → ∀ i, 0 < i → i < size → shape.parent i = pos →
    key (es (shape.parent pos)) ≤ key (es i)

/-! ## Moving up -/

theorem OrderedUpTo.swap (ordered : OrderedUpTo shape key es size pos) (positive : 0 < pos)
    (within : pos < size) (less : key (es pos) < key (es (shape.parent pos))) :
    OrderedUpTo shape key (swapCells es pos (shape.parent pos)) size (shape.parent pos) := by
  have above := shape.parent_lt pos positive
  constructor
  · intro i iPos iLt other
    by_cases isPos : i = pos
    · subst isPos
      rw [swapCells_left, swapCells_right]
      exact less.le
    rw [swapCells_of_ne isPos other]
    have old := ordered.others i iPos iLt isPos
    by_cases below : shape.parent i = pos
    · rw [below, swapCells_left]
      exact ordered.beyond positive i iPos iLt below
    by_cases beside : shape.parent i = shape.parent pos
    · rw [beside, swapCells_right]
      exact less.le.trans (beside ▸ old)
    · rwa [swapCells_of_ne below beside]
  · intro parentPos i iPos iLt isParent
    have higher := shape.parent_lt _ parentPos
    have lower := shape.parent_lt i iPos
    have grand : key (es (shape.parent (shape.parent pos))) ≤ key (es (shape.parent pos)) :=
      ordered.others _ parentPos (above.trans within) above.ne
    rw [swapCells_of_ne (higher.trans above).ne higher.ne]
    by_cases isPos : i = pos
    · subst isPos
      rwa [swapCells_left]
    · rw [swapCells_of_ne isPos (isParent ▸ lower.ne')]
      have old := ordered.others i iPos iLt isPos
      rw [isParent] at old
      exact grand.trans old

theorem contents_siftUp (within : pos < size) (fuel : Nat) :
    contents (shape.siftUp before fuel es pos) size = contents es size := by
  induction fuel generalizing es pos with
  | zero => rfl
  | succ fuel ih =>
      unfold siftUp
      split
      · rename_i moves
        have above := shape.parent_lt pos (Nat.pos_of_ne_zero moves.1)
        rw [ih (above.trans within), contents_swapCells within (above.trans within)]
      · rfl

theorem OrderedUpTo.ordered (ordered : OrderedUpTo shape key es size pos)
    (placed : 0 < pos → key (es (shape.parent pos)) ≤ key (es pos)) :
    Ordered shape key es size := by
  intro i iPos iLt
  by_cases isPos : i = pos
  · exact isPos ▸ placed (isPos ▸ iPos)
  · exact ordered.others i iPos iLt isPos

theorem OrderedUpTo.siftUp (ordered : OrderedUpTo shape key es size pos)
    (compares : Compares before key (contents es size)) (within : pos < size) {fuel : Nat}
    (enough : pos ≤ fuel) : Ordered shape key (shape.siftUp before fuel es pos) size := by
  induction fuel generalizing es pos with
  | zero =>
      obtain rfl := Nat.le_zero.mp enough
      exact ordered.ordered fun positive => absurd positive (lt_irrefl 0)
  | succ fuel ih =>
      unfold HeapShape.siftUp
      split
      · rename_i moves
        have positive := Nat.pos_of_ne_zero moves.1
        have above := shape.parent_lt pos positive
        have less := (compares.iff within (above.trans within)).mp moves.2
        refine ih (ordered.swap positive within less) ?_ (above.trans within) (by omega)
        rwa [contents_swapCells within (above.trans within)]
      · rename_i stays
        refine ordered.ordered fun positive => ?_
        have above := shape.parent_lt pos positive
        by_contra less
        exact stays ⟨positive.ne', (compares.iff within (above.trans within)).mpr (not_le.mp less)⟩

/-! ## Moving down -/

theorem mem_children_iff {t : Nat} :
    t ∈ shape.children size pos ↔ 0 < t ∧ shape.parent t = pos ∧ t < size := by
  have place := shape.mem_children pos t
  rw [children, List.mem_range'_1]
  omega

theorem smallestOf_mem (ts : List Nat) :
    smallestOf before es pos ts = pos ∨ smallestOf before es pos ts ∈ ts := by
  induction ts generalizing pos with
  | nil => exact Or.inl rfl
  | cons t ts ih =>
      rw [smallestOf, List.foldl_cons, ← smallestOf]
      split
      · rcases @ih t with same | later
        · exact Or.inr (List.mem_cons.mpr (Or.inl same))
        · exact Or.inr (List.mem_cons_of_mem t later)
      · rcases @ih pos with same | later
        · exact Or.inl same
        · exact Or.inr (List.mem_cons_of_mem t later)

theorem smallestOf_le (compares : Compares before key (contents es size)) (within : pos < size)
    {ts : List Nat} (all : ∀ t ∈ ts, t < size) :
    key (es (smallestOf before es pos ts)) ≤ key (es pos) ∧
      ∀ t ∈ ts, key (es (smallestOf before es pos ts)) ≤ key (es t) := by
  induction ts generalizing pos with
  | nil => exact ⟨le_rfl, fun t member => absurd member List.not_mem_nil⟩
  | cons t ts ih =>
      have tLt := all t List.mem_cons_self
      have rest : ∀ t ∈ ts, t < size := fun t member => all t (List.mem_cons_of_mem _ member)
      rw [smallestOf, List.foldl_cons, ← smallestOf]
      split
      · rename_i less
        obtain ⟨first, later⟩ := @ih t tLt rest
        refine ⟨first.trans ((compares.iff tLt within).mp less).le, fun s member => ?_⟩
        rcases List.mem_cons.mp member with rfl | inRest
        · exact first
        · exact later s inRest
      · rename_i notLess
        obtain ⟨first, later⟩ := @ih pos within rest
        refine ⟨first, fun s member => ?_⟩
        rcases List.mem_cons.mp member with rfl | inRest
        · have least := (compares.iff tLt within).not.mp notLess
          exact first.trans (not_lt.mp least)
        · exact later s inRest

theorem OrderedDownTo.swap (ordered : OrderedDownTo shape key es size pos) {child : Nat}
    (positive : 0 < child) (isChild : shape.parent child = pos) (within : child < size)
    (less : key (es child) ≤ key (es pos))
    (least : ∀ i, 0 < i → i < size → shape.parent i = pos → key (es child) ≤ key (es i)) :
    OrderedDownTo shape key (swapCells es pos child) size child := by
  have below : pos < child := isChild ▸ shape.parent_lt child positive
  constructor
  · intro i iPos iLt notBelow
    have lower := shape.parent_lt i iPos
    by_cases isPos : i = pos
    · -- the position that the child moves to
      subst isPos
      rw [swapCells_left, swapCells_of_ne lower.ne notBelow]
      exact ordered.beyond iPos child positive within isChild
    by_cases beside : shape.parent i = pos
    · rw [beside, swapCells_left]
      by_cases isThis : i = child
      · subst isThis
        rwa [swapCells_right]
      · rw [swapCells_of_ne isPos isThis]
        exact least i iPos iLt beside
    · have other : i ≠ child := by
        rintro rfl
        exact beside isChild
      rw [swapCells_of_ne isPos other, swapCells_of_ne beside notBelow]
      exact ordered.others i iPos iLt beside
  · intro _ i iPos iLt isParent
    have lower : child < i := isParent ▸ shape.parent_lt i iPos
    rw [isChild, swapCells_left, swapCells_of_ne (below.trans lower).ne' lower.ne']
    have old := ordered.others i iPos iLt (by rw [isParent]; exact below.ne')
    rwa [isParent] at old

theorem contents_siftDown (within : pos < size) (fuel : Nat) :
    contents (shape.siftDown before size fuel es pos) size = contents es size := by
  induction fuel generalizing es pos with
  | zero => rfl
  | succ fuel ih =>
      unfold siftDown
      dsimp only
      split
      · rfl
      · rename_i moves
        have isChild := (smallestOf_mem (shape.children size pos)).resolve_left moves
        have childLt := (mem_children_iff.mp isChild).2.2
        rw [ih childLt, contents_swapCells within childLt]

theorem OrderedDownTo.siftDown (ordered : OrderedDownTo shape key es size pos)
    (compares : Compares before key (contents es size)) (within : pos < size) {fuel : Nat}
    (enough : size ≤ pos + fuel) :
    Ordered shape key (shape.siftDown before size fuel es pos) size := by
  induction fuel generalizing es pos with
  | zero => omega
  | succ fuel ih =>
      have all : ∀ t ∈ shape.children size pos, t < size :=
        fun t member => (mem_children_iff.mp member).2.2
      obtain ⟨first, least⟩ := smallestOf_le compares within all
      have isLeast : ∀ i, 0 < i → i < size → shape.parent i = pos →
          key (es (smallestOf before es pos (shape.children size pos))) ≤ key (es i) :=
        fun i iPos iLt isParent => least i (mem_children_iff.mpr ⟨iPos, isParent, iLt⟩)
      unfold HeapShape.siftDown
      dsimp only
      split
      · rename_i stays
        rw [stays] at isLeast
        intro i iPos iLt
        by_cases isParent : shape.parent i = pos
        · exact isParent ▸ isLeast i iPos iLt isParent
        · exact ordered.others i iPos iLt isParent
      · rename_i moves
        obtain ⟨positive, isChild, childLt⟩ := mem_children_iff.mp
          ((smallestOf_mem (shape.children size pos)).resolve_left moves)
        have below := shape.parent_lt _ positive
        rw [isChild] at below
        refine ih (ordered.swap positive isChild childLt first isLeast) ?_ childLt (by omega)
        rwa [contents_swapCells within childLt]

/-! ## Insertion and removal -/

/-- An element behind an ordered array may only have to move up. -/
theorem Ordered.append (ordered : Ordered shape key es size) :
    OrderedUpTo shape key es (size + 1) size := by
  have noChild : ∀ i, 0 < i → i < size + 1 → shape.parent i ≠ size := by
    intro i positive within isParent
    have above := shape.parent_lt i positive
    omega
  exact ⟨fun i positive within other => ordered i positive (by omega),
    fun _ i positive within isParent => absurd isParent (noChild i positive within)⟩

/-- Only the element at `pos` may be out of place. -/
structure OrderedAround (shape : HeapShape) (key : α → κ) (es : Nat → α) (size pos : Nat) :
    Prop where
  others : ∀ i, 0 < i → i < size → i ≠ pos → shape.parent i ≠ pos →
    key (es (shape.parent i)) ≤ key (es i)
  beyond : 0 < pos → ∀ i, 0 < i → i < size → shape.parent i = pos →
    key (es (shape.parent pos)) ≤ key (es i)

/-- The last element takes the place of another one. -/
theorem Ordered.swapLast (ordered : Ordered shape key es (size + 1)) (within : pos < size) :
    OrderedAround shape key (swapCells es size pos) size pos := by
  have kept : ∀ i < size, i ≠ pos → swapCells es size pos i = es i :=
    fun i iLt other => swapCells_of_ne iLt.ne other
  constructor
  · intro i positive iLt other notBelow
    have above := (shape.parent_lt i positive).trans iLt
    rw [kept i iLt other, kept _ above notBelow]
    exact ordered i positive (iLt.trans (Nat.lt_succ_self _))
  · intro posPos i positive iLt isParent
    have lower : pos < i := isParent ▸ shape.parent_lt i positive
    have higher := shape.parent_lt pos posPos
    rw [kept i iLt lower.ne', kept _ (higher.trans within) higher.ne]
    have first := ordered pos posPos (within.trans (Nat.lt_succ_self _))
    have second := ordered i positive (iLt.trans (Nat.lt_succ_self _))
    rw [isParent] at second
    exact first.trans second

theorem OrderedAround.downTo (around : OrderedAround shape key es size pos)
    (placed : 0 < pos → key (es (shape.parent pos)) ≤ key (es pos)) :
    OrderedDownTo shape key es size pos := by
  refine ⟨fun i positive within notBelow => ?_, around.beyond⟩
  by_cases isPos : i = pos
  · exact isPos ▸ placed (isPos ▸ positive)
  · exact around.others i positive within isPos notBelow

theorem OrderedAround.upTo (around : OrderedAround shape key es size pos) (positive : 0 < pos)
    (less : key (es pos) < key (es (shape.parent pos))) :
    OrderedUpTo shape key es size pos := by
  refine ⟨fun i iPos within other => ?_, around.beyond⟩
  by_cases below : shape.parent i = pos
  · rw [below]
    exact less.le.trans (around.beyond positive i iPos within below)
  · exact around.others i iPos within other below

end HeapShape

end DoomDraft
