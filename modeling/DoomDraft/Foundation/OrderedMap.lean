import Mathlib.Order.Lattice
import Mathlib.Tactic.Common

/-!
# Finite maps in key order

The executable counterpart of a balanced search tree: an association list kept
in strictly increasing key order.  Iteration order is the order of `entries`,
so a loop over the map is a recursion over that list, and a point query is
characterized by `find?_eq_some_iff` alone.
-/

namespace DoomDraft

universe u v

/-- A finite map whose entries are stored in strictly increasing key order. -/
structure OrderedMap (K : Type u) (V : Type v) [LinearOrder K] where
  entries : List (K × V)
  sorted : entries.Pairwise fun left right => left.1 < right.1
  deriving DecidableEq

namespace OrderedMap

variable {K : Type u} {V : Type v} [LinearOrder K]

/-- The map without entries. -/
def empty : OrderedMap K V :=
  ⟨[], List.Pairwise.nil⟩

/-- The value stored at `key`. -/
def find? (map : OrderedMap K V) (key : K) : Option V :=
  (map.entries.find? fun entry => entry.1 = key).map Prod.snd

/-- Whether `key` has an entry. -/
def contains (map : OrderedMap K V) (key : K) : Bool :=
  (map.find? key).isSome

/-- The entry with the least key. -/
def first? (map : OrderedMap K V) : Option (K × V) :=
  map.entries.head?

/-- The entries from the first key that is not below `key` to the end. -/
def lowerBound (map : OrderedMap K V) (key : K) : List (K × V) :=
  map.entries.dropWhile fun entry => entry.1 < key

/-- Put `key` at its place in an ordered entry list, replacing its old entry. -/
def insertEntries (key : K) (value : V) : List (K × V) → List (K × V)
  | [] => [(key, value)]
  | entry :: rest =>
      if key < entry.1 then (key, value) :: entry :: rest
      else if entry.1 < key then entry :: insertEntries key value rest
      else (key, value) :: rest

theorem mem_insertEntries_iff (key : K) (value : V) {entries : List (K × V)}
    (sorted : entries.Pairwise fun left right => left.1 < right.1) (entry : K × V) :
    entry ∈ insertEntries key value entries ↔
      entry = (key, value) ∨ entry ∈ entries ∧ entry.1 ≠ key := by
  induction entries with
  | nil => simp [insertEntries]
  | cons first rest ih =>
      have restAbove := (List.pairwise_cons.mp sorted).1
      have restSorted := (List.pairwise_cons.mp sorted).2
      unfold insertEntries
      split
      · rename_i keyBelow
        have above : ∀ other ∈ first :: rest, other.1 ≠ key := by
          intro other member
          rcases List.mem_cons.mp member with rfl | member
          · exact keyBelow.ne'
          · exact (keyBelow.trans (restAbove other member)).ne'
        constructor
        · intro member
          rcases List.mem_cons.mp member with rfl | member
          · exact Or.inl rfl
          · exact Or.inr ⟨member, above _ member⟩
        · rintro (rfl | ⟨member, -⟩)
          · exact List.mem_cons_self
          · exact List.mem_cons_of_mem _ member
      · split
        · rename_i keyAbove
          rw [List.mem_cons, ih restSorted, List.mem_cons]
          constructor
          · rintro (rfl | equal | ⟨member, ne⟩)
            · exact Or.inr ⟨Or.inl rfl, keyAbove.ne⟩
            · exact Or.inl equal
            · exact Or.inr ⟨Or.inr member, ne⟩
          · rintro (equal | ⟨equal | member, ne⟩)
            · exact Or.inr (Or.inl equal)
            · exact Or.inl equal
            · exact Or.inr (Or.inr ⟨member, ne⟩)
        · rename_i notBelow notAbove
          have keyEq : first.1 = key := le_antisymm (not_lt.mp notBelow) (not_lt.mp notAbove)
          rw [List.mem_cons, List.mem_cons]
          constructor
          · rintro (equal | member)
            · exact Or.inl equal
            · exact Or.inr ⟨Or.inr member, keyEq ▸ (restAbove _ member).ne'⟩
          · rintro (equal | ⟨rfl | member, ne⟩)
            · exact Or.inl equal
            · exact absurd keyEq ne
            · exact Or.inr member

theorem insertEntries_sorted (key : K) (value : V) {entries : List (K × V)}
    (sorted : entries.Pairwise fun left right => left.1 < right.1) :
    (insertEntries key value entries).Pairwise fun left right => left.1 < right.1 := by
  induction entries with
  | nil => simp [insertEntries]
  | cons first rest ih =>
      have restAbove := (List.pairwise_cons.mp sorted).1
      have restSorted := (List.pairwise_cons.mp sorted).2
      unfold insertEntries
      split
      · rename_i keyBelow
        refine List.pairwise_cons.mpr ⟨?_, sorted⟩
        intro other member
        rcases List.mem_cons.mp member with rfl | member
        · exact keyBelow
        · exact keyBelow.trans (restAbove other member)
      · split
        · rename_i keyAbove
          refine List.pairwise_cons.mpr ⟨?_, ih restSorted⟩
          intro other member
          rcases (mem_insertEntries_iff key value restSorted other).mp member with rfl | member
          · exact keyAbove
          · exact restAbove other member.1
        · rename_i notBelow notAbove
          have keyEq : first.1 = key := le_antisymm (not_lt.mp notBelow) (not_lt.mp notAbove)
          exact List.pairwise_cons.mpr ⟨fun other member => keyEq ▸ restAbove other member,
            restSorted⟩

/-- Store `value` at `key`, replacing the old value if there is one. -/
def insert (map : OrderedMap K V) (key : K) (value : V) : OrderedMap K V :=
  ⟨insertEntries key value map.entries, insertEntries_sorted key value map.sorted⟩

/-- Store `value` at `key` unless the key already has a value. -/
def emplace (map : OrderedMap K V) (key : K) (value : V) : OrderedMap K V :=
  if map.contains key then map else map.insert key value

/-- Remove the entry of `key`. -/
def erase (map : OrderedMap K V) (key : K) : OrderedMap K V :=
  ⟨map.entries.filter fun entry => entry.1 ≠ key, map.sorted.filter _⟩

/-- Remove every entry from the lower bound of `key` on. -/
def eraseFrom (map : OrderedMap K V) (key : K) : OrderedMap K V :=
  ⟨map.entries.filter fun entry => entry.1 < key, map.sorted.filter _⟩

/-- Remove the entry with the least key. -/
def eraseFirst (map : OrderedMap K V) : OrderedMap K V :=
  ⟨map.entries.tail, map.sorted.tail⟩

/-! ## Point queries -/

theorem entry_unique (map : OrderedMap K V) {key : K} {first second : V}
    (firstMem : (key, first) ∈ map.entries) (secondMem : (key, second) ∈ map.entries) :
    first = second := by
  obtain ⟨i, iLt, iEq⟩ := List.mem_iff_getElem.mp firstMem
  obtain ⟨j, jLt, jEq⟩ := List.mem_iff_getElem.mp secondMem
  have ordered := List.pairwise_iff_getElem.mp map.sorted
  rcases Nat.lt_trichotomy i j with below | rfl | below
  · have keyLt := ordered i j iLt jLt below
    rw [iEq, jEq] at keyLt
    exact absurd keyLt (lt_irrefl key)
  · exact (Prod.mk.inj (iEq.symm.trans jEq)).2
  · have keyLt := ordered j i jLt iLt below
    rw [iEq, jEq] at keyLt
    exact absurd keyLt (lt_irrefl key)

/-- A point query reads membership in the entry list. -/
theorem find?_eq_some_iff (map : OrderedMap K V) (key : K) (value : V) :
    map.find? key = some value ↔ (key, value) ∈ map.entries := by
  unfold find?
  constructor
  · intro found
    obtain ⟨entry, lookup, rfl⟩ := Option.map_eq_some_iff.mp found
    have keyEq : entry.1 = key := by simpa using List.find?_some lookup
    rw [← keyEq]
    exact List.mem_of_find?_eq_some lookup
  · intro member
    cases lookup : map.entries.find? fun entry => entry.1 = key with
    | none =>
        have missing := List.find?_eq_none.mp lookup (key, value) member
        simp at missing
    | some entry =>
        have keyEq : entry.1 = key := by simpa using List.find?_some lookup
        have entryMem : (key, entry.2) ∈ map.entries := by
          rw [← keyEq]
          exact List.mem_of_find?_eq_some lookup
        rw [map.entry_unique member entryMem]
        rfl

theorem find?_eq_none_iff (map : OrderedMap K V) (key : K) :
    map.find? key = none ↔ ∀ value, (key, value) ∉ map.entries := by
  constructor
  · intro missing value member
    rw [← find?_eq_some_iff, missing] at member
    contradiction
  · intro missing
    cases found : map.find? key with
    | none => rfl
    | some value => exact absurd ((map.find?_eq_some_iff key value).mp found) (missing value)

@[simp]
theorem find?_empty (key : K) : (empty : OrderedMap K V).find? key = none :=
  rfl

theorem find?_insert (map : OrderedMap K V) (key other : K) (value : V) :
    (map.insert key value).find? other = if other = key then some value else map.find? other := by
  apply Option.ext
  intro stored
  rw [find?_eq_some_iff]
  change (other, stored) ∈ insertEntries key value map.entries ↔ _
  rw [mem_insertEntries_iff key value map.sorted]
  by_cases keyEq : other = key
  · subst other
    simp [eq_comm]
  · simp [keyEq, find?_eq_some_iff]

theorem find?_emplace (map : OrderedMap K V) (key other : K) (value : V) :
    (map.emplace key value).find? other =
      if other = key then some ((map.find? key).getD value) else map.find? other := by
  unfold emplace contains
  cases found : map.find? key with
  | none => simp [find?_insert]
  | some stored =>
      by_cases keyEq : other = key
      · subst other
        simp [found]
      · simp [keyEq]

theorem find?_erase (map : OrderedMap K V) (key other : K) :
    (map.erase key).find? other = if other = key then none else map.find? other := by
  apply Option.ext
  intro stored
  rw [find?_eq_some_iff]
  by_cases keyEq : other = key
  · simp [erase, keyEq]
  · simp [erase, keyEq, find?_eq_some_iff]

theorem find?_eraseFrom (map : OrderedMap K V) (key other : K) :
    (map.eraseFrom key).find? other = if other < key then map.find? other else none := by
  apply Option.ext
  intro stored
  rw [find?_eq_some_iff]
  by_cases below : other < key
  · simp [eraseFrom, below, find?_eq_some_iff]
  · simp [eraseFrom, below]

/-! ## The least entry -/

theorem first?_eq_none_iff (map : OrderedMap K V) :
    map.first? = none ↔ ∀ key, map.find? key = none := by
  unfold first?
  rw [List.head?_eq_none_iff]
  constructor
  · intro noEntries key
    rw [find?_eq_none_iff, noEntries]
    simp
  · intro missing
    apply List.eq_nil_iff_forall_not_mem.mpr
    rintro ⟨key, value⟩ member
    exact (map.find?_eq_none_iff key).mp (missing key) value member

theorem find?_of_first? {map : OrderedMap K V} {key : K} {value : V}
    (least : map.first? = some (key, value)) : map.find? key = some value := by
  rw [find?_eq_some_iff]
  exact List.mem_of_mem_head? least

theorem first?_le {map : OrderedMap K V} {key other : K} {value stored : V}
    (least : map.first? = some (key, value)) (found : map.find? other = some stored) :
    key ≤ other := by
  rw [find?_eq_some_iff] at found
  obtain ⟨rest, entriesEq⟩ := List.head?_eq_some_iff.mp least
  have sorted := map.sorted
  rw [entriesEq] at found sorted
  rcases List.mem_cons.mp found with equal | member
  · exact (congrArg Prod.fst equal).ge
  · exact ((List.pairwise_cons.mp sorted).1 _ member).le

theorem find?_eraseFirst {map : OrderedMap K V} {key : K} {value : V}
    (least : map.first? = some (key, value)) (other : K) :
    map.eraseFirst.find? other = if other = key then none else map.find? other := by
  obtain ⟨rest, entriesEq⟩ := List.head?_eq_some_iff.mp least
  have sorted := map.sorted
  rw [entriesEq] at sorted
  have restAbove := (List.pairwise_cons.mp sorted).1
  apply Option.ext
  intro stored
  rw [find?_eq_some_iff]
  by_cases keyEq : other = key
  · subst other
    simp only [eraseFirst, entriesEq, List.tail_cons, if_true, reduceCtorEq, iff_false]
    intro member
    exact lt_irrefl key (restAbove _ member)
  · simp [eraseFirst, keyEq, find?_eq_some_iff, entriesEq]

theorem mem_of_mem_lowerBound {map : OrderedMap K V} {key : K} {entry : K × V}
    (member : entry ∈ map.lowerBound key) : map.find? entry.1 = some entry.2 := by
  rw [find?_eq_some_iff]
  exact (List.dropWhile_suffix _).subset member

/-- From a key that is present on, its own entry comes first. -/
theorem exists_lowerBound_eq {map : OrderedMap K V} {key : K} {value : V}
    (found : map.find? key = some value) : ∃ rest, map.lowerBound key = (key, value) :: rest := by
  obtain ⟨before, rest, entriesEq⟩ :=
    List.append_of_mem ((find?_eq_some_iff map key value).mp found)
  have sorted := map.sorted
  rw [entriesEq, List.pairwise_append] at sorted
  have below : ∀ entry ∈ before, decide (entry.1 < key) = true := fun entry member =>
    decide_eq_true (sorted.2.2 entry member _ List.mem_cons_self)
  refine ⟨rest, ?_⟩
  rw [lowerBound, entriesEq, List.dropWhile_append_of_pos below, List.dropWhile_cons_of_neg]
  simp

end OrderedMap

end DoomDraft
