import DoomDraft.Foundation.KeySorted

/-!
# Walking two ordered maps

The loop that compares two maps entry by entry and advances where the key is
smaller.  It visits every key of either map once, together with what both maps
have there, so what it finds is a matter of point queries.
-/

namespace DoomDraft.OrderedMap

universe u v

variable {K : Type u} {V : Type v} [LinearOrder K]

/-- The first key of either list at which `bad` holds of the two values. -/
def walkEntries (bad : K → Option V → Option V → Bool) :
    List (K × V) → List (K × V) → Option K
  | [], [] => none
  | a :: as, [] => if bad a.1 (some a.2) none then some a.1 else walkEntries bad as []
  | [], b :: bs => if bad b.1 none (some b.2) then some b.1 else walkEntries bad [] bs
  | a :: as, b :: bs =>
      if a.1 < b.1 then
        if bad a.1 (some a.2) none then some a.1 else walkEntries bad as (b :: bs)
      else if b.1 < a.1 then
        if bad b.1 none (some b.2) then some b.1 else walkEntries bad (a :: as) bs
      else
        if bad a.1 (some a.2) (some b.2) then some a.1 else walkEntries bad as bs
  termination_by as bs => as.length + bs.length

/-- The first key of either map at which `bad` holds of the two values. -/
def walk (left : OrderedMap K V) (bad : K → Option V → Option V → Bool) (right : OrderedMap K V) :
    Option K :=
  walkEntries bad left.entries right.entries

/-! ## Values of an entry list -/

/-- The value at `key`. -/
def valueAt (entries : List (K × V)) (key : K) : Option V :=
  (entries.find? fun entry => entry.1 = key).map Prod.snd

theorem valueAt_cons (entry : K × V) (rest : List (K × V)) (key : K) :
    valueAt (entry :: rest) key = if entry.1 = key then some entry.2 else valueAt rest key := by
  unfold valueAt
  by_cases same : entry.1 = key <;> simp [same]

/-- Below the first key there is no value. -/
theorem valueAt_eq_none {entries : List (K × V)} {key : K}
    (above : ∀ entry ∈ entries, key < entry.1) : valueAt entries key = none := by
  rw [valueAt, Option.map_eq_none_iff, List.find?_eq_none]
  intro entry member
  simpa using (above entry member).ne'

/-- `bad` holds at no key of the two lists. -/
def Clean (bad : K → Option V → Option V → Bool) (as bs : List (K × V)) : Prop :=
  ∀ key, valueAt as key ≠ none ∨ valueAt bs key ≠ none →
    bad key (valueAt as key) (valueAt bs key) = false

/-- A key below the rest of both lists is visited apart from them. -/
theorem clean_split {bad : K → Option V → Option V → Bool} {key : K} {a b : Option V}
    {as bs restA restB : List (K × V)} (present : a ≠ none ∨ b ≠ none)
    (aboveA : ∀ entry ∈ restA, key < entry.1) (aboveB : ∀ entry ∈ restB, key < entry.1)
    (valuesA : ∀ other, valueAt as other = if key = other then a else valueAt restA other)
    (valuesB : ∀ other, valueAt bs other = if key = other then b else valueAt restB other) :
    Clean bad as bs ↔ bad key a b = false ∧ Clean bad restA restB := by
  have hereA := valuesA key
  have hereB := valuesB key
  rw [if_pos rfl] at hereA hereB
  constructor
  · intro clean
    refine ⟨hereA ▸ hereB ▸ clean key (by rwa [hereA, hereB]), fun other found => ?_⟩
    have different : key ≠ other := by
      rintro rfl
      rw [valueAt_eq_none aboveA, valueAt_eq_none aboveB] at found
      simp at found
    have there := clean other
    rw [valuesA, valuesB, if_neg different, if_neg different] at there
    exact there found
  · rintro ⟨here, clean⟩ other found
    rw [valuesA, valuesB] at found ⊢
    by_cases same : key = other
    · subst same
      rwa [if_pos rfl, if_pos rfl]
    · rw [if_neg same, if_neg same] at found ⊢
      exact clean other found

/-- The values of a list of which nothing is below `key`. -/
theorem valueAt_eq_ite {rest : List (K × V)} {key : K} (above : ∀ entry ∈ rest, key < entry.1)
    (other : K) : valueAt rest other = if key = other then none else valueAt rest other := by
  split
  · rename_i same
    exact valueAt_eq_none (same ▸ above)
  · rfl

omit [LinearOrder K] in
theorem ite_some_eq_none_iff {isBad : Bool} {key : K} {rest : Option K} :
    (if isBad then some key else rest) = none ↔ isBad = false ∧ rest = none := by
  cases isBad <;> simp

/-- The walk finds nothing exactly when there is nothing to find. -/
theorem walkEntries_eq_none_iff (bad : K → Option V → Option V → Bool) (as bs : List (K × V))
    (sortedA : as.Pairwise fun left right => left.1 < right.1)
    (sortedB : bs.Pairwise fun left right => left.1 < right.1) :
    walkEntries bad as bs = none ↔ Clean bad as bs := by
  match as, bs with
  | [], [] => simp [walkEntries, Clean, valueAt]
  | a :: as, [] =>
      have aboveA := (List.pairwise_cons.mp sortedA).1
      rw [walkEntries, ite_some_eq_none_iff, walkEntries_eq_none_iff bad as [] sortedA.of_cons
        sortedB, clean_split (Or.inl (Option.some_ne_none a.2)) aboveA (by simp)
        (valueAt_cons a as) (valueAt_eq_ite (by simp))]
  | [], b :: bs =>
      have aboveB := (List.pairwise_cons.mp sortedB).1
      rw [walkEntries, ite_some_eq_none_iff, walkEntries_eq_none_iff bad [] bs sortedA
        sortedB.of_cons, clean_split (Or.inr (Option.some_ne_none b.2)) (by simp) aboveB
        (valueAt_eq_ite (by simp)) (valueAt_cons b bs)]
  | a :: as, b :: bs =>
      have aboveA := (List.pairwise_cons.mp sortedA).1
      have aboveB := (List.pairwise_cons.mp sortedB).1
      rw [walkEntries]
      rcases lt_trichotomy a.1 b.1 with below | same | below
      · have above : ∀ entry ∈ b :: bs, a.1 < entry.1 :=
          List.forall_mem_cons.mpr ⟨below, fun entry member => below.trans (aboveB entry member)⟩
        rw [if_pos below, ite_some_eq_none_iff,
          walkEntries_eq_none_iff bad as (b :: bs) sortedA.of_cons sortedB,
          clean_split (Or.inl (Option.some_ne_none a.2)) aboveA above (valueAt_cons a as)
            (valueAt_eq_ite above)]
      · have valuesB := valueAt_cons b bs
        rw [← same] at valuesB aboveB
        rw [if_neg (by rw [same]; exact lt_irrefl _), if_neg (by rw [same]; exact lt_irrefl _),
          ite_some_eq_none_iff, walkEntries_eq_none_iff bad as bs sortedA.of_cons sortedB.of_cons,
          clean_split (Or.inl (Option.some_ne_none a.2)) aboveA aboveB (valueAt_cons a as) valuesB]
      · have above : ∀ entry ∈ a :: as, b.1 < entry.1 :=
          List.forall_mem_cons.mpr ⟨below, fun entry member => below.trans (aboveA entry member)⟩
        rw [if_neg below.asymm, if_pos below, ite_some_eq_none_iff,
          walkEntries_eq_none_iff bad (a :: as) bs sortedA sortedB.of_cons,
          clean_split (Or.inr (Option.some_ne_none b.2)) above aboveB (valueAt_eq_ite above)
            (valueAt_cons b bs)]
  termination_by as.length + bs.length

/-- Of two maps, the walk finds nothing exactly when no key that either has is bad. -/
theorem walk_eq_none_iff (bad : K → Option V → Option V → Bool) (left right : OrderedMap K V) :
    left.walk bad right = none ↔
      ∀ key, left.find? key ≠ none ∨ right.find? key ≠ none →
        bad key (left.find? key) (right.find? key) = false :=
  walkEntries_eq_none_iff bad left.entries right.entries left.sorted right.sorted

/-- A map is determined by its point queries. -/
theorem ext_find? {left right : OrderedMap K V}
    (same : ∀ key, left.find? key = right.find? key) : left = right := by
  have entries : left.entries = right.entries := by
    refine @KeySorted.eq_of_mem_iff _ _ _ Prod.fst _ _ left.sorted right.sorted fun entry => ?_
    rw [← find?_eq_some_iff left entry.1 entry.2, ← find?_eq_some_iff right entry.1 entry.2, same]
  cases left
  cases right
  simpa using entries

end DoomDraft.OrderedMap
