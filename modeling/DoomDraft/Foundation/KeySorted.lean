import DoomDraft.Foundation.OrderedMap
import Mathlib.Data.List.Pairwise
import Mathlib.Data.List.Sort

/-!
# Lists with strictly increasing keys

A list whose elements have strictly increasing keys is determined by its set of
elements, so two ways to arrive at it need only be compared element by
element.
-/

namespace DoomDraft

universe u v

variable {α : Type u} {κ : Type v} [LinearOrder κ] {key : α → κ}

/-- The keys of the elements increase strictly. -/
def KeySorted (key : α → κ) (list : List α) : Prop :=
  list.Pairwise fun first second => key first < key second

namespace KeySorted

theorem nodup {list : List α} (sorted : KeySorted key list) : list.Nodup :=
  sorted.imp fun less equal => by
    subst equal
    exact lt_irrefl _ less

/-- The elements determine the list. -/
theorem eq_of_mem_iff {left right : List α} (leftSorted : KeySorted key left)
    (rightSorted : KeySorted key right) (same : ∀ x, x ∈ left ↔ x ∈ right) : left = right := by
  have perm : left.Perm right :=
    (List.perm_ext_iff_of_nodup leftSorted.nodup rightSorted.nodup).mpr same
  refine perm.eq_of_pairwise ?_ leftSorted rightSorted
  intro first second _ _ less greater
  exact absurd less greater.asymm

/-- Elements of the list with one key are equal. -/
theorem injOn {list : List α} (sorted : KeySorted key list) {x y : α} (xMem : x ∈ list)
    (yMem : y ∈ list) (same : key x = key y) : x = y := by
  have symmetric : Std.Symm fun first second => key first ≠ key second := ⟨fun _ _ => Ne.symm⟩
  have distinct : list.Pairwise fun first second => key first ≠ key second :=
    sorted.imp fun less => less.ne
  by_contra different
  exact distinct.forall xMem yMem different same

theorem filter {list : List α} (sorted : KeySorted key list) (p : α → Bool) :
    KeySorted key (list.filter p) :=
  List.Pairwise.filter p sorted

/-- A list in weakly increasing order whose keys are pairwise different. -/
theorem of_le {list : List α} (sorted : list.Pairwise fun first second => key first ≤ key second)
    (distinct : list.Pairwise fun first second => key first ≠ key second) :
    KeySorted key list :=
  (sorted.and distinct).imp fun both => lt_of_le_of_ne both.1 both.2

/-- The last element has the largest key. -/
theorem le_of_getLast? {list : List α} (sorted : KeySorted key list) {last : α}
    (isLast : list.getLast? = some last) {x : α} (member : x ∈ list) : key x ≤ key last := by
  obtain ⟨front, rfl⟩ := List.getLast?_eq_some_iff.mp isLast
  rcases List.mem_append.mp member with before | atEnd
  · exact ((List.pairwise_append.mp sorted).2.2 x before last (List.mem_singleton_self last)).le
  · rw [List.mem_singleton.mp atEnd]

/-- The elements split around an element by their keys. -/
theorem eq_append_of_mem {list : List α} (sorted : KeySorted key list) {x : α}
    (member : x ∈ list) :
    list = list.filter (fun y => key y < key x) ++ x :: list.filter (fun y => key x < key y) := by
  apply sorted.eq_of_mem_iff
  · refine List.pairwise_append.mpr
      ⟨sorted.filter _, List.pairwise_cons.mpr ⟨?_, sorted.filter _⟩, ?_⟩
    · intro y above
      exact of_decide_eq_true (List.mem_filter.mp above).2
    · intro y below z above
      have lower : key y < key x := of_decide_eq_true (List.mem_filter.mp below).2
      rcases List.mem_cons.mp above with rfl | above
      · exact lower
      · exact lower.trans (of_decide_eq_true (List.mem_filter.mp above).2)
  · intro y
    simp only [List.mem_append, List.mem_cons, List.mem_filter, decide_eq_true_eq]
    constructor
    · intro inList
      rcases lt_trichotomy (key y) (key x) with less | equal | greater
      · exact Or.inl ⟨inList, less⟩
      · refine Or.inr (Or.inl ?_)
        exact sorted.injOn inList member equal
      · exact Or.inr (Or.inr ⟨inList, greater⟩)
    · rintro (⟨inList, -⟩ | rfl | ⟨inList, -⟩)
      · exact inList
      · exact member
      · exact inList

/-- An element with the largest key is the last. -/
theorem eq_filter_append {list : List α} (sorted : KeySorted key list) {x : α}
    (member : x ∈ list) (largest : ∀ y ∈ list, key y ≤ key x) :
    list = list.filter (fun y => key y ≠ key x) ++ [x] := by
  refine sorted.eq_of_mem_iff ?_ fun y => ?_
  · refine List.pairwise_append.mpr ⟨sorted.filter _, List.pairwise_singleton _ _, ?_⟩
    intro y kept last isLast
    obtain rfl := List.mem_singleton.mp isLast
    obtain ⟨inList, different⟩ := List.mem_filter.mp kept
    exact lt_of_le_of_ne (largest y inList) (of_decide_eq_true different)
  · rw [List.mem_append, List.mem_filter, List.mem_singleton, decide_eq_true_eq]
    constructor
    · intro inList
      by_cases same : key y = key x
      · exact Or.inr (sorted.injOn inList member same)
      · exact Or.inl ⟨inList, same⟩
    · rintro (⟨inList, -⟩ | rfl)
      · exact inList
      · exact member

end KeySorted

/-- The entries of a map, read in the order of a list that has all its keys. -/
theorem OrderedMap.entries_eq_filterMap {V : Type u} (map : OrderedMap κ V) {keys : List κ}
    (sorted : keys.Pairwise (· < ·))
    (covers : ∀ key value, map.find? key = some value → key ∈ keys) :
    map.entries = keys.filterMap fun key => (map.find? key).map (Prod.mk key) := by
  have rightSorted : KeySorted Prod.fst
      (keys.filterMap fun key => (map.find? key).map (Prod.mk key)) := by
    refine sorted.filterMap _ fun first second less entry isFirst other isSecond => ?_
    obtain ⟨_, _, rfl⟩ := Option.map_eq_some_iff.mp isFirst
    obtain ⟨_, _, rfl⟩ := Option.map_eq_some_iff.mp isSecond
    exact less
  refine @KeySorted.eq_of_mem_iff _ _ _ Prod.fst _ _ map.sorted rightSorted ?_
  rintro ⟨key, value⟩
  rw [← map.find?_eq_some_iff, List.mem_filterMap]
  constructor
  · intro found
    exact ⟨key, covers key value found, by rw [found]; rfl⟩
  · rintro ⟨other, _, isEntry⟩
    obtain ⟨stored, found, same⟩ := Option.map_eq_some_iff.mp isEntry
    obtain ⟨rfl, rfl⟩ := Prod.mk.inj same
    exact found

end DoomDraft
