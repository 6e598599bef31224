import Mathlib.Data.List.Basic
import Mathlib.Data.Option.Basic

/-!
# Runs of partial transition functions

A machine is a partial function from a state and an action to the next state.
A finite run is a list of actions that are enabled one after another, and a
point of time in a run is a prefix of that list.
-/

namespace DoomDraft.Transition

universe u v w

variable {σ : Type u} {α : Type v}

/-- Perform actions in order; undefined as soon as an action is not enabled. -/
def perform (step : σ → α → Option σ) (state : σ) : List α → Option σ
  | [] => some state
  | action :: rest => (step state action).bind fun next => perform step next rest

/-- Each action of the run is taken in a state that permits it. -/
def Permitted (step : σ → α → Option σ) (permits : σ → α → Prop) (state : σ) :
    List α → Prop
  | [] => True
  | action :: rest => permits state action ∧
      ∀ next, step state action = some next → Permitted step permits next rest

variable {step : σ → α → Option σ} {permits : σ → α → Prop}

instance decidablePermitted [∀ state action, Decidable (permits state action)] :
    ∀ (state : σ) (actions : List α), Decidable (Permitted step permits state actions)
  | _, [] => isTrue trivial
  | state, action :: rest =>
      match stepped : step state action with
      | none => decidable_of_iff (permits state action)
          ⟨fun now => ⟨now, fun next taken => by rw [stepped] at taken; contradiction⟩, And.left⟩
      | some next =>
          have := decidablePermitted next rest
          decidable_of_iff (permits state action ∧ Permitted step permits next rest)
            ⟨fun both => ⟨both.1, fun other taken => by
                obtain rfl := Option.some.inj (stepped.symm.trans taken)
                exact both.2⟩,
              fun permitted => ⟨permitted.1, permitted.2 next stepped⟩⟩

theorem perform_append (state : σ) (first second : List α) :
    perform step state (first ++ second) =
      (perform step state first).bind fun middle => perform step middle second := by
  induction first generalizing state with
  | nil => rfl
  | cons action rest ih =>
      simp only [List.cons_append, perform, Option.bind_assoc]
      congr 1
      funext next
      exact ih next

/-- Of two points of one run, the later state continues the earlier one. -/
theorem exists_perform_of_take {state early late : σ} {actions : List α} {t u : Nat}
    (le : t ≤ u) (first : perform step state (actions.take t) = some early)
    (second : perform step state (actions.take u) = some late) :
    ∃ more, perform step early more = some late := by
  refine ⟨(actions.take u).drop t, ?_⟩
  have split : actions.take u = actions.take t ++ (actions.take u).drop t := by
    have parts := (List.take_append_drop t (actions.take u)).symm
    rwa [List.take_take, Nat.min_eq_left le] at parts
  rw [split, perform_append, first] at second
  exact second

/-- The run rule: what holds at the start and is preserved by every permitted
step holds after every permitted run. -/
theorem perform_induction {P : σ → Prop}
    (preserved : ∀ state action next, P state → permits state action →
      step state action = some next → P next)
    {state final : σ} {actions : List α} (holds : P state)
    (permitted : Permitted step permits state actions)
    (run : perform step state actions = some final) : P final := by
  induction actions generalizing state with
  | nil =>
      obtain rfl := Option.some.inj run
      exact holds
  | cons action rest ih =>
      obtain ⟨next, stepped, continued⟩ := Option.bind_eq_some_iff.mp run
      exact ih (preserved state action next holds permitted.1 stepped)
        (permitted.2 next stepped) continued

/-- The two parts of a permitted run. -/
theorem Permitted.append {state : σ} {first second : List α}
    (permitted : Permitted step permits state (first ++ second)) :
    Permitted step permits state first ∧
      ∀ middle, perform step state first = some middle → Permitted step permits middle second := by
  induction first generalizing state with
  | nil =>
      refine ⟨trivial, ?_⟩
      rintro middle run
      obtain rfl := Option.some.inj run
      exact permitted
  | cons action rest ih =>
      refine ⟨⟨permitted.1, fun next stepped => (ih (permitted.2 next stepped)).1⟩, ?_⟩
      intro middle run
      obtain ⟨next, stepped, continued⟩ := Option.bind_eq_some_iff.mp run
      exact (ih (permitted.2 next stepped)).2 middle continued

/-- A weaker condition on the steps of a run. -/
theorem Permitted.imp {allows : σ → α → Prop} {state : σ} {actions : List α}
    (weaker : ∀ state action, permits state action → allows state action)
    (permitted : Permitted step permits state actions) : Permitted step allows state actions := by
  induction actions generalizing state with
  | nil => trivial
  | cons action rest ih =>
      exact ⟨weaker state action permitted.1, fun next stepped => ih (permitted.2 next stepped)⟩

/-- Two conditions on the steps of a run, asked of each step together. -/
theorem Permitted.and {allows : σ → α → Prop} {state : σ} {actions : List α}
    (permitted : Permitted step permits state actions)
    (allowed : Permitted step allows state actions) :
    Permitted step (fun state action => permits state action ∧ allows state action) state
      actions := by
  induction actions generalizing state with
  | nil => trivial
  | cons action rest ih =>
      exact ⟨⟨permitted.1, allowed.1⟩, fun next stepped =>
        ih (permitted.2 next stepped) (allowed.2 next stepped)⟩

/-- What every action of a run satisfies may be asked of each step. -/
theorem Permitted.and_forall {state : σ} {actions : List α} {Q : α → Prop}
    (permitted : Permitted step permits state actions) (all : ∀ action ∈ actions, Q action) :
    Permitted step (fun state action => permits state action ∧ Q action) state actions := by
  induction actions generalizing state with
  | nil => trivial
  | cons action rest ih =>
      rw [List.forall_mem_cons] at all
      exact ⟨⟨permitted.1, all.1⟩, fun next stepped => ih (permitted.2 next stepped) all.2⟩

/-- A run is permitted where every step is. -/
theorem permitted_of_forall (always : ∀ state action, permits state action) (state : σ)
    (actions : List α) : Permitted step permits state actions := by
  induction actions generalizing state with
  | nil => trivial
  | cons action rest ih => exact ⟨always state action, fun next _ => ih next⟩

/-- The run rule without a condition on the steps. -/
theorem perform_invariant {P : σ → Prop}
    (preserved : ∀ state action next, P state → step state action = some next → P next)
    {state final : σ} {actions : List α} (holds : P state)
    (run : perform step state actions = some final) : P final := by
  have unconditional : Permitted step (fun _ _ => True) state actions :=
    permitted_of_forall (fun _ _ => trivial) state actions
  refine perform_induction ?_ holds unconditional run
  exact fun state action next before _ stepped => preserved state action next before stepped

/-- The points of a run behind its first step. -/
theorem perform_take_cons {state next : σ} {action : α} (stepped : step state action = some next)
    (rest : List α) (t : Nat) :
    perform step state ((action :: rest).take (t + 1)) = perform step next (rest.take t) := by
  simp only [List.take_succ_cons, perform, stepped, Option.bind_some]

/-- The exact run rule: where each step keeps `P` exactly if it is permitted, `P`
holds at every point of a run exactly if every step is permitted.  `J` is an
invariant that holds in any case. -/
theorem permitted_iff_forall_take {P J : σ → Prop}
    (kept : ∀ state action next, J state → step state action = some next → J next)
    (exactStep : ∀ state action next, J state → P state → step state action = some next →
      (P next ↔ permits state action))
    {state final : σ} {actions : List α} (always : J state) (holds : P state)
    (run : perform step state actions = some final) :
    Permitted step permits state actions ↔
      ∀ t middle, perform step state (actions.take t) = some middle → P middle := by
  induction actions generalizing state with
  | nil =>
      refine ⟨fun _ t middle reached => ?_, fun _ => trivial⟩
      rw [List.take_nil] at reached
      obtain rfl := Option.some.inj reached
      exact holds
  | cons action rest ih =>
      obtain ⟨next, stepped, continued⟩ := Option.bind_eq_some_iff.mp run
      have alwaysNext := kept state action next always stepped
      have exactly := exactStep state action next always holds stepped
      have shifted := perform_take_cons stepped rest
      constructor
      · rintro ⟨now, later⟩ t middle reached
        cases t with
        | zero =>
            obtain rfl := Option.some.inj reached
            exact holds
        | succ t =>
            rw [shifted] at reached
            have restHolds := (ih alwaysNext (exactly.mpr now) continued).mp (later next stepped)
            exact restHolds t middle reached
      · intro everywhere
        have holdsNext : P next := everywhere 1 next (shifted 0)
        refine ⟨exactly.mp holdsNext, fun other taken => ?_⟩
        obtain rfl := Option.some.inj (stepped.symm.trans taken)
        refine (ih alwaysNext holdsNext continued).mpr fun t middle reached => ?_
        exact everywhere (t + 1) middle ((shifted t).trans reached)

/-- The termination rule: where every step lowers a measure, a machine without
actions ends within as many steps. -/
theorem exists_perform_replicate {next : σ → Unit → Option σ} (measure : σ → Nat)
    (lowers : ∀ state action later, next state action = some later →
      measure later < measure state) (state : σ) :
    ∃ steps ≤ measure state, ∃ final,
      perform next state (List.replicate steps ()) = some final ∧ next final () = none := by
  induction bound : measure state using Nat.strongRecOn generalizing state with
  | _ n ih =>
      cases stepped : next state () with
      | none => exact ⟨0, Nat.zero_le _, state, rfl, stepped⟩
      | some later =>
          have lower := lowers state () later stepped
          obtain ⟨steps, within, final, run, ended⟩ := ih _ (bound ▸ lower) later rfl
          refine ⟨steps + 1, by omega, final, ?_, ended⟩
          rw [List.replicate_succ, perform, stepped]
          exact run

/-! ## Outputs of a run -/

variable {β : Type w}

/-- What has been put out stays. -/
theorem isPrefix_of_perform (out : σ → List β)
    (grows : ∀ state action next, step state action = some next → out state <+: out next)
    {state final : σ} {actions : List α} (run : perform step state actions = some final) :
    out state <+: out final :=
  perform_invariant (P := fun later => out state <+: out later)
    (fun _ _ _ before stepped => before.trans (grows _ _ _ stepped)) List.prefix_rfl run

/-- The exact rule for outputs: where what a step puts out meets the demands of
the state before it exactly if the step is permitted, and demands are never
dropped, everything that a run puts out meets the demands of all earlier states
exactly if every step is permitted. -/
theorem permitted_iff_forall_outputs (out : σ → List β) (demands : σ → β → Prop)
    {J : σ → Prop}
    (kept : ∀ state action next, J state → step state action = some next → J next)
    (grows : ∀ state action next, step state action = some next → out state <+: out next)
    (persist : ∀ state action next value, step state action = some next →
      demands next value → demands state value)
    (exactStep : ∀ state action next, J state → step state action = some next →
      ((∀ value ∈ (out next).drop (out state).length, demands state value) ↔
        permits state action))
    {state final : σ} {actions : List α} (always : J state)
    (run : perform step state actions = some final) :
    Permitted step permits state actions ↔
      ∀ t middle, perform step state (actions.take t) = some middle →
        ∀ value ∈ (out final).drop (out middle).length, demands middle value := by
  induction actions generalizing state with
  | nil =>
      refine ⟨fun _ t middle reached value member => ?_, fun _ => trivial⟩
      rw [List.take_nil] at reached
      obtain rfl := Option.some.inj reached
      obtain rfl := Option.some.inj run
      simp at member
  | cons action rest ih =>
      obtain ⟨next, stepped, continued⟩ := Option.bind_eq_some_iff.mp run
      have exactly := exactStep state action next always stepped
      have rule := ih (kept state action next always stepped) continued
      -- the outputs of the run are those of its first step and then the others
      obtain ⟨new, nextEq⟩ := grows state action next stepped
      obtain ⟨later, finalEq⟩ := isPrefix_of_perform out grows continued
      have newEq : (out next).drop (out state).length = new := by
        rw [← nextEq, List.drop_left]
      have laterEq : (out final).drop (out next).length = later := by
        rw [← finalEq, List.drop_left]
      have allEq : (out final).drop (out state).length = new ++ later := by
        rw [← finalEq, ← nextEq, List.append_assoc, List.drop_left]
      rw [newEq] at exactly
      constructor
      · rintro ⟨now, permitted⟩ t middle reached
        have restHolds := rule.mp (permitted next stepped)
        cases t with
        | zero =>
            obtain rfl := Option.some.inj reached
            intro value member
            rw [allEq] at member
            rcases List.mem_append.mp member with here | there
            · exact exactly.mpr now value here
            · refine persist state action next value stepped ?_
              exact restHolds 0 next rfl value (laterEq ▸ there)
        | succ t => exact restHolds t middle (perform_take_cons stepped rest t ▸ reached)
      · intro everywhere
        have first := everywhere 0 state rfl
        rw [allEq] at first
        refine ⟨exactly.mp fun value member => first value (List.mem_append_left _ member), ?_⟩
        intro other taken
        obtain rfl := Option.some.inj (stepped.symm.trans taken)
        refine rule.mpr fun t middle reached => ?_
        exact everywhere (t + 1) middle ((perform_take_cons stepped rest t).trans reached)

/-! ## Machines that answer -/

section Answers

variable {τ : Type u} {ω : Type w} {call : σ → α → Option (σ × ω)} {call' : τ → α → Option (τ × ω)}

/-- The answers to calls in order; undefined as soon as a call is. -/
def answers (call : σ → α → Option (σ × ω)) : σ → List α → Option (List ω)
  | _, [] => some []
  | state, input :: rest =>
      (call state input).bind fun (next, answer) => (answers call next rest).map (answer :: ·)

/-- Two machines whose related states answer alike, and remain related, cannot be told
apart by any sequence of calls. -/
theorem answers_eq_of_simulation {R : σ → τ → Prop}
    (simulates : ∀ state state' input, R state state' →
      Option.Rel (fun after after' => R after.1 after'.1 ∧ after.2 = after'.2)
        (call state input) (call' state' input))
    {state : σ} {state' : τ} (related : R state state') (inputs : List α) :
    answers call state inputs = answers call' state' inputs := by
  induction inputs generalizing state state' with
  | nil => rfl
  | cons input rest ih =>
      have here := simulates state state' input related
      simp only [answers]
      cases called : call state input with
      | none =>
          rw [called] at here
          cases called' : call' state' input with
          | none => rfl
          | some after' =>
              rw [called'] at here
              cases here
      | some after =>
          rw [called] at here
          cases called' : call' state' input with
          | none =>
              rw [called'] at here
              cases here
          | some after' =>
              rw [called'] at here
              cases here with
              | some alike =>
                  simp only [Option.bind_some, ih alike.1, alike.2]

end Answers

end DoomDraft.Transition
