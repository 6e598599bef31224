import Mathlib.Data.List.Perm.Subperm

/-!
# Threshold systems

Some elements of a system are set from outside.  An element may also have a gate: a
threshold and a list of inputs, of which some are constantly true.  What holds is the
least set that contains what has been set and every element enough of whose inputs hold.
-/

namespace DoomDraft.Threshold

universe u

/-- A threshold and the inputs that it is about; `none` is a constant. -/
abbrev Gate (ι : Type u) := Nat × List (Option ι)

variable {ι : Type u}

/-- What holds in a system with these gates, given what has been set. -/
inductive Holds (set : ι → Prop) (gate : ι → Option (Gate ι)) : ι → Prop
  | set {i : ι} (isSet : set i) : Holds set gate i
  | gate {i : ι} {threshold : Nat} {inputs : List (Option ι)}
      (has : gate i = some (threshold, inputs))
      (chosen : List (Option ι)) (among : List.Subperm chosen inputs)
      (enough : threshold ≤ chosen.length) (hold : ∀ j, some j ∈ chosen → Holds set gate j) :
      Holds set gate i

variable {set set' : ι → Prop} {gate gate' : ι → Option (Gate ι)} {i : ι}

/-- Setting more and adding inputs loses nothing. -/
theorem Holds.mono (more : ∀ i, set i → set' i)
    (grown : ∀ i threshold inputs, gate i = some (threshold, inputs) →
      ∃ added, gate' i = some (threshold, inputs ++ added))
    (holds : Holds set gate i) : Holds set' gate' i := by
  induction holds with
  | set isSet => exact .set (more _ isSet)
  | gate has chosen among enough _ ih =>
      obtain ⟨added, has'⟩ := grown _ _ _ has
      have within : List.Subperm chosen (_ ++ added) :=
        among.trans (List.sublist_append_left _ added).subperm
      exact .gate has' chosen within enough ih

/-- The rule for a set that the gates do not leave: it is enough that no gate outside
it has as many inputs inside it as its threshold asks for. -/
theorem Holds.mem_of_closed (inside : Option ι → Bool) (isSet : ∀ i, set i → inside (some i))
    (closed : ∀ i threshold inputs, gate i = some (threshold, inputs) → ¬inside (some i) →
      inputs.countP inside < threshold)
    (holds : Holds set gate i) (constant : inside none) : inside (some i) := by
  induction holds with
  | set here => exact isSet _ here
  | gate has chosen among enough _ ih =>
      by_contra outside
      have all : chosen.countP inside = chosen.length := by
        rw [List.countP_eq_length]
        rintro (_ | j) member
        · exact constant
        · exact ih j member
      have few := closed _ _ _ has outside
      have count := among.countP_le inside
      omega

end DoomDraft.Threshold
