import DoomDraft.Cotamer.EventCalls

/-!
# Events over whole runs

In every run of a program an event has triggered if and only if it had to: somebody
triggered it, or it is a quorum enough of whose members have triggered.  Coroutines that
wait for a triggered event are scheduled, provided that the driver never triggers an
event above which several coroutines wait.
-/

namespace DoomDraft.Cotamer

universe u

variable {τ : Type u}

namespace Events

variable {self : Events τ} {e : EventId}

/-- `driver_trigger` of an event that has triggered. -/
theorem driverTrigger_triggered [DecidableEq τ] (triggered : (self.body e).triggered) :
    self.driverTrigger e = match firstCoroutine (self.body e).listeners with
      | none => (self, none)
      | some t => (self.removeListener e (.coroutine t), some t) :=
  if_pos triggered

theorem driverTrigger_untriggered [DecidableEq τ] (untriggered : (self.body e).triggered = false) :
    self.driverTrigger e = self.triggerEvent true e :=
  if_neg (Bool.eq_false_iff.mp untriggered)

theorem coroutine_notMem_of_firstCoroutine {listeners : List (Listener τ)}
    (noneFirst : firstCoroutine listeners = none) (t : τ) : .coroutine t ∉ listeners := by
  induction listeners with
  | nil => exact List.not_mem_nil
  | cons listener rest ih =>
      cases listener with
      | quorum q =>
          exact List.not_mem_cons_of_ne_of_not_mem (coroutine_ne_quorum t q) (ih noneFirst)
      | coroutine other => cases noneFirst

/-- An event that has triggered, or is a quorum with enough of its members, is among
those that the invariant lets trigger. -/
theorem Consistent.triggered_iff [DecidableEq τ] {fired : EventId → Prop}
    (consistent : Consistent fired self) (isFired : ∀ e, fired e → (self.body e).triggered) :
    (self.body e).triggered ↔ Threshold.Holds fired self.gate e := by
  refine ⟨consistent.linked.due e, fun holds => ?_⟩
  refine holds.mem_of_closed self.settled isFired ?_ rfl
  intro q threshold inputs has outside
  have untriggered : (self.body q).triggered = false := Bool.eq_false_iff.mpr outside
  rw [gate] at has
  split at has
  case isFalse => cases has
  case isTrue isQuorum =>
    obtain ⟨reported, perm, length, settled⟩ := consistent.linked.counted q isQuorum untriggered
    obtain ⟨rfl, rfl⟩ := Prod.mk.inj (Option.some.inj has)
    have members : ((self.body q).members.map some).countP self.settled = 0 := by
      rw [List.countP_eq_zero]
      intro handle member
      obtain ⟨m, isMember, rfl⟩ := List.mem_map.mp member
      intro isSettled
      have triggered : (self.body m).triggered := isSettled
      have count := consistent.linked.linked q m
      rw [if_pos triggered, List.count_nil, List.count_eq_zero] at count
      exact count isMember
    rw [perm.countP_eq, List.countP_append, members, Nat.add_zero]
    refine Nat.lt_of_le_of_lt List.countP_le_length ?_
    rw [length]
    exact consistent.below q isQuorum untriggered

end Events

namespace EventLoop

variable [DecidableEq τ] {loop after : EventLoop τ} {e : EventId}

/-- What holds in every state of a run. -/
structure Sound (loop : EventLoop τ) : Prop where
  consistent : Events.Consistent (· ∈ loop.fired) loop.events
  fired : ∀ e ∈ loop.fired, (loop.events.body e).triggered
  queued : ∀ e ∈ loop.events.asap, e < loop.events.next
  watched : ∀ e ∈ loop.watched, e < loop.events.next
  draining : ∀ e ∈ loop.draining, e < loop.events.next
  interest : ∀ t handle, loop.interest t = some handle → loop.Known handle

theorem Sound.start : Sound (EventLoop.start : EventLoop τ) where
  consistent := by
    refine ⟨⟨?_, ?_, ?_, ?_, ?_, ?_, ?_⟩, ?_, ?_⟩ <;> simp [EventLoop.start, Events.Below]
  fired := fun _ member => absurd member List.not_mem_nil
  queued := fun _ member => absurd member List.not_mem_nil
  watched := fun _ member => absurd member List.not_mem_nil
  draining := fun _ member => absurd member (Option.not_mem_none _)
  interest := fun _ _ has => absurd has.symm (Option.some_ne_none _)

/-- A call of the program. -/
theorem Sound.call {events : Events τ} {fired : List EventId} (sound : Sound loop)
    (consistent : Events.Consistent (· ∈ fired) events)
    (follows : Events.Follows loop.events events)
    (isFired : ∀ e ∈ fired, e ∈ loop.fired ∨ (events.body e).triggered) :
    Sound { loop with events := events, fired := fired } := by
  have next := follows.next
  constructor
  case consistent => exact consistent
  case fired =>
    intro x member
    exact (isFired x member).elim (fun before => follows.triggered x (sound.fired x before)) id
  case queued =>
    intro x member
    rcases follows.posted x member with before | triggered
    · exact Nat.lt_of_lt_of_le (sound.queued x before) next
    · by_contra beyond
      have untriggered := (consistent.linked.fresh x (Nat.le_of_not_lt beyond)).1
      exact Bool.false_ne_true (untriggered.symm.trans triggered)
  case watched => exact fun x member => Nat.lt_of_lt_of_le (sound.watched x member) next
  case draining => exact fun x member => Nat.lt_of_lt_of_le (sound.draining x member) next
  case interest =>
    intro t handle has x isEvent
    exact Nat.lt_of_lt_of_le (sound.interest t handle has x isEvent) next

/-- The program or the driver triggers an event. -/
theorem Sound.trigger (sound : Sound loop) (inRange : e < loop.events.next) :
    Sound { loop with events := loop.events.trigger e, fired := e :: loop.fired } := by
  have consistent : Events.Consistent (· ∈ e :: loop.fired) loop.events :=
    sound.consistent.imp fun _ => List.mem_cons_of_mem e
  obtain ⟨consistent', triggered⟩ := consistent.trigger List.mem_cons_self inRange
  apply sound.call consistent' (Events.advances_trigger _ e).toFollows
  intro x member
  rcases List.mem_cons.mp member with rfl | before
  · exact Or.inr triggered
  · exact Or.inl before

theorem Sound.withInterest (sound : Sound loop) (t : τ) {handle : EventHandle}
    (known : loop.Known handle) :
    Sound { loop with interest := Function.update loop.interest t (some handle) } := by
  refine { sound with interest := ?_ }
  intro u other has
  dsimp only at has
  by_cases own : u = t
  · subst own
    rw [Function.update_self] at has
    exact Option.some.inj has ▸ known
  · rw [Function.update_of_ne own] at has
    exact sound.interest u other has

theorem Sound.newEvent (sound : Sound loop) : Sound { loop with events := loop.events.alloc {} } :=
  sound.call sound.consistent.alloc (sound.consistent.linked.advances_alloc false 0).toFollows
    fun _ => Or.inl

omit [DecidableEq τ] in
theorem next_makeInterest [DecidableEq τ] (loop : EventLoop τ) (t : τ) :
    loop.events.next ≤ (loop.makeInterest t).events.next := by
  rw [EventLoop.makeInterest]
  split
  · exact Nat.le_refl _
  · exact Nat.le_succ _

theorem Sound.makeInterest (sound : Sound loop) (t : τ) : Sound (loop.makeInterest t) := by
  rw [EventLoop.makeInterest]
  split
  · exact sound
  · apply sound.newEvent.withInterest t
    rintro _ ⟨⟩
    exact Nat.lt_succ_self _

/-- The driver takes a coroutine from the event that it drains. -/
theorem Sound.drain (sound : Sound loop) (inRange : e < loop.events.next) :
    Sound { loop with
      events := (loop.events.driverTrigger e).1
      fired := e :: loop.fired } := by
  have consistent : Events.Consistent (· ∈ e :: loop.fired) loop.events :=
    sound.consistent.imp fun _ => List.mem_cons_of_mem e
  cases triggered : (loop.events.body e).triggered with
  | true =>
      have known : ∀ x ∈ e :: loop.fired, x ∈ loop.fired ∨ (loop.events.body x).triggered := by
        rw [List.forall_mem_cons]
        exact ⟨Or.inr triggered, fun _ => Or.inl⟩
      rw [Events.driverTrigger_triggered triggered]
      split
      · exact sound.call consistent (Events.Advances.refl _).toFollows known
      case h_2 t _ =>
        obtain ⟨consistent', advances⟩ := consistent.removeWaiter e t
        exact sound.call consistent' advances.toFollows fun x member =>
          (known x member).imp_right (advances.triggered x)
  | false =>
      obtain ⟨consistent', isTriggered⟩ := (consistent.filling e).triggerEvent triggered inRange
        (.set List.mem_cons_self) true
      rw [Events.driverTrigger_untriggered triggered]
      apply sound.call consistent' (Events.grows_trigger_ true _ e).follows
      rw [List.forall_mem_cons]
      exact ⟨Or.inr isTriggered, fun _ => Or.inl⟩

theorem Sound.await (sound : Sound loop) (t : τ) (inRange : e < loop.events.next) :
    Events.Consistent (· ∈ loop.fired) (loop.events.await t ((loop.interest t).getD none) e) ∧
      Events.Advances loop.events (loop.events.await t ((loop.interest t).getD none) e) := by
  have known : loop.Known ((loop.interest t).getD none) := by
    cases has : loop.interest t with
    | none => exact fun _ isEvent => absurd isEvent (Option.not_mem_none _)
    | some handle => exact sound.interest t handle has
  exact sound.consistent.await t known inRange

/-- To wait for an event a task may first get an interest event. -/
theorem exists_of_step_await {t : τ} (stepped : loop.step (.await t e) = some after) :
    ∃ middle, (middle = loop ∨ middle = loop.makeInterest t) ∧ e < middle.events.next ∧
      after = { middle with
        events := middle.events.await t ((middle.interest t).getD none) e } := by
  rw [EventLoop.step] at stepped
  split at stepped
  case isFalse => cases stepped
  case isTrue inRange =>
    obtain rfl := Option.some.inj stepped
    refine ⟨_, ?_, ?_, rfl⟩
    · split
      · exact Or.inr rfl
      · exact Or.inl rfl
    · split
      · exact Nat.lt_of_lt_of_le inRange (loop.next_makeInterest t)
      · exact inRange

theorem Sound.step {action : EventAction τ} (sound : Sound loop)
    (stepped : loop.step action = some after) : Sound after := by
  cases action with
  | newEvent =>
      obtain rfl := Option.some.inj stepped
      exact sound.newEvent
  | make quorum args =>
      rw [EventLoop.step] at stepped
      split at stepped
      case isFalse => cases stepped
      case isTrue known =>
        obtain rfl := Option.some.inj stepped
        obtain ⟨consistent, advances⟩ := sound.consistent.make quorum args known
        exact sound.call consistent advances.toFollows fun _ => Or.inl
  | trigger e =>
      rw [EventLoop.step] at stepped
      split at stepped
      case isFalse => cases stepped
      case isTrue inRange =>
        obtain rfl := Option.some.inj stepped
        exact sound.trigger inRange
  | asap e =>
      rw [EventLoop.step] at stepped
      split at stepped
      case isFalse => cases stepped
      case isTrue inRange =>
        obtain rfl := Option.some.inj stepped
        refine { sound with
          consistent := { sound.consistent with linked := sound.consistent.linked.withAsap _ }
          queued := ?_ }
        intro x member
        rcases List.mem_append.mp member with before | new
        · exact sound.queued x before
        · exact (List.mem_singleton.mp new).symm ▸ inRange
  | watch e =>
      rw [EventLoop.step] at stepped
      split at stepped
      case isFalse => cases stepped
      case isTrue inRange =>
        obtain rfl := Option.some.inj stepped
        exact { sound with watched := List.forall_mem_cons.mpr ⟨inRange, sound.watched⟩ }
  | makeInterest t =>
      obtain rfl := Option.some.inj stepped
      exact sound.makeInterest t
  | start t =>
      rw [EventLoop.step] at stepped
      split at stepped
      case h_1 e has =>
        obtain rfl := Option.some.inj stepped
        exact sound.trigger (sound.interest t (some e) has e rfl)
      case h_2 =>
        obtain rfl := Option.some.inj stepped
        apply sound.withInterest t
        rintro _ ⟨⟩
  | await t e =>
      obtain ⟨middle, isMiddle, inRange, rfl⟩ := exists_of_step_await stepped
      have asked : Sound middle := by
        rcases isMiddle with rfl | rfl
        · exact sound
        · exact sound.makeInterest t
      obtain ⟨consistent, advances⟩ := asked.await t inRange
      exact asked.call consistent advances.toFollows fun _ => Or.inl
  | cancel t e =>
      obtain rfl := Option.some.inj stepped
      obtain ⟨consistent, advances⟩ := sound.consistent.removeWaiter e t
      exact sound.call consistent advances.toFollows fun _ => Or.inl
  | cull e =>
      rw [EventLoop.step] at stepped
      split at stepped
      case isFalse => cases stepped
      case isTrue =>
        obtain rfl := Option.some.inj stepped
        exact { sound with
          watched := fun x member => sound.watched x (List.mem_of_mem_erase member) }
  | takeAsap =>
      rw [EventLoop.step] at stepped
      split at stepped
      case h_2 => cases stepped
      case h_1 e rest isDraining queue =>
        obtain rfl := Option.some.inj stepped
        have queued := sound.queued
        rw [queue, List.forall_mem_cons] at queued
        refine { sound with
          consistent := { sound.consistent with linked := sound.consistent.linked.withAsap _ }
          queued := queued.2
          draining := ?_ }
        rintro _ ⟨⟩
        exact queued.1
  | takeWatched e =>
      rw [EventLoop.step] at stepped
      split at stepped
      case isFalse => cases stepped
      case isTrue taken =>
        obtain rfl := Option.some.inj stepped
        refine { sound with
          watched := fun x member => sound.watched x (List.mem_of_mem_erase member)
          draining := ?_ }
        rintro _ ⟨⟩
        exact sound.watched e taken.2
  | drain =>
      rw [EventLoop.step] at stepped
      split at stepped
      case h_1 => cases stepped
      case h_2 e isDraining =>
        have drained := sound.drain (sound.draining e isDraining)
        split at stepped
        case h_1 events ended =>
          rw [ended] at drained
          obtain rfl := Option.some.inj stepped
          exact { drained with draining := fun _ claimed => absurd claimed (Option.not_mem_none _) }
        case h_2 events t claimed =>
          rw [claimed] at drained
          obtain rfl := Option.some.inj stepped
          exact drained

theorem Sound.run {actions : List (EventAction τ)}
    (run : Transition.perform EventLoop.step EventLoop.start actions = some after) : Sound after :=
  Transition.perform_invariant (fun _ _ _ before stepped => before.step stepped) Sound.start run

/-- In every state that a program and its driver can reach, an event has triggered
exactly if it had to: somebody triggered it, or it is a quorum and enough of the members
that it has been given had to trigger. -/
theorem triggered_iff_due {actions : List (EventAction τ)} {final : EventLoop τ}
    (run : Transition.perform step EventLoop.start actions = some final) (e : EventId) :
    (final.events.body e).triggered ↔
      Threshold.Holds (· ∈ final.fired) final.events.gate e :=
  (Sound.run run).consistent.triggered_iff (Sound.run run).fired

/-- A quorum of one: its second member has triggered. -/
theorem triggered_iff_due_any :
    ∃ final : EventLoop Bool,
      Transition.perform step EventLoop.start
        [.newEvent, .newEvent, .make 1 [some (some 0), some (some 1)], .await true 2, .trigger 1] =
          some final ∧
      Threshold.Holds (· ∈ final.fired) final.events.gate 2 := by
  have run : Transition.perform step (EventLoop.start : EventLoop Bool)
      [.newEvent, .newEvent, .make 1 [some (some 0), some (some 1)], .await true 2, .trigger 1] =
        some _ := rfl
  exact ⟨_, run, (triggered_iff_due run 2).mp rfl⟩

/-! ## Coroutines that can run -/

/-- The events that trigger when the driver triggers `e`. -/
def Triggers (loop : EventLoop τ) (e x : EventId) : Prop :=
  (loop.events.body x).triggered = false ∧
    Threshold.Holds (· ∈ e :: loop.fired) loop.events.gate x

/-- The coroutines that wait for an event. -/
def waiting (loop : EventLoop τ) (x : EventId) : List τ :=
  (loop.events.body x).listeners.filterMap fun
    | .coroutine t => some t
    | .quorum _ => none

/-- The driver resumes the coroutines of the event that it triggers, and one coroutine of
all those that wait for events that trigger with it. -/
def OneWoken (loop : EventLoop τ) (e : EventId) : Prop :=
  (∀ x, loop.Triggers e x → x ≠ e → loop.waiting x = []) ∨
    ∃ y, (loop.waiting y).length ≤ 1 ∧ ∀ x, loop.Triggers e x → x ≠ y → loop.waiting x = []

/-- The condition on the steps of a driver. -/
def Wakeable (loop : EventLoop τ) (action : EventAction τ) : Prop :=
  action = .drain → ∀ e ∈ loop.draining,
    (loop.events.body e).triggered = false → loop.OneWoken e

/-- Whoever waits for a triggered event is behind one that the driver will resume. -/
def Awake (loop : EventLoop τ) : Prop :=
  ∀ x t, (loop.events.body x).triggered → .coroutine t ∈ (loop.events.body x).listeners →
    x ∈ loop.events.asap ∨ loop.draining = some x

omit [DecidableEq τ] in
theorem mem_waiting {x : EventId} {t : τ} :
    t ∈ loop.waiting x ↔ .coroutine t ∈ (loop.events.body x).listeners := by
  rw [waiting, List.mem_filterMap]
  constructor
  · rintro ⟨listener, member, same⟩
    cases listener with
    | coroutine u =>
        cases same
        exact member
    | quorum q => cases same
  · exact fun member => ⟨_, member, rfl⟩

theorem count_waiting (x : EventId) (t : τ) :
    (loop.waiting x).count t = (loop.events.body x).listeners.count (.coroutine t) := by
  rw [waiting]
  induction (loop.events.body x).listeners with
  | nil => rfl
  | cons listener rest ih =>
      cases listener with
      | coroutine u => simp [List.count_cons, ih]
      | quorum q =>
          rw [List.filterMap_cons_none rfl, ih,
            List.count_cons_of_ne (coroutine_ne_quorum t q).symm]

omit [DecidableEq τ] in
/-- A call of the program schedules whom it wakes. -/
theorem Awake.call (awake : Awake loop) (advances : Events.Advances loop.events after.events)
    (draining : after.draining = loop.draining) : Awake after := by
  intro x t triggered waits
  rw [draining]
  rcases advances.wakes x t triggered waits with queued | ⟨triggered', waits'⟩
  · exact Or.inl queued
  · exact (awake x t triggered' waits').imp_left fun queued => advances.asap queued

/-- The driver triggers the event that it drains. -/
theorem Awake.trigger (awake : Awake loop) (sound : Sound loop)
    (isDraining : loop.draining = some e) (untriggered : (loop.events.body e).triggered = false)
    (one : loop.OneWoken e) (x : EventId) (t : τ)
    (triggered : ((loop.events.triggerEvent true e).1.body x).triggered)
    (waits : .coroutine t ∈ ((loop.events.triggerEvent true e).1.body x).listeners) :
    x ∈ (loop.events.triggerEvent true e).1.asap ∨ x = e := by
  have claims := Events.claims_trigger_ untriggered
  have waited := claims.mem_before waits
  cases before : (loop.events.body x).triggered with
  | true =>
      refine (awake x t before waited).imp (fun queued => claims.asap queued) fun own => ?_
      exact Option.some.inj (own.symm.trans isDraining)
  | false =>
      have consistent : Events.Consistent (· ∈ e :: loop.fired) loop.events :=
        sound.consistent.imp fun _ => List.mem_cons_of_mem e
      have cascade := ((consistent.filling e).triggerEvent untriggered
        (sound.draining e isDraining) (.set List.mem_cons_self) true).1
      have due : ∀ y, (loop.events.body y).triggered = false →
          ((loop.events.triggerEvent true e).1.body y).triggered → loop.Triggers e y := by
        intro y isUntriggered isTriggered
        have holds := cascade.linked.due y isTriggered
        rw [(Events.grows_trigger_ true loop.events e).gate] at holds
        exact ⟨isUntriggered, holds⟩
      rcases one with onItself | ⟨y, single, others⟩
      · right
        by_contra different
        have nobody := onItself x (due x before triggered) different
        exact List.ne_nil_of_mem (mem_waiting.mpr waited) nobody
      · -- the one coroutine that waits has been taken
        exfalso
        have isOne : ∀ z u, loop.Triggers e z → .coroutine u ∈ (loop.events.body z).listeners →
            z = y := by
          intro z u isDue isWaiting
          by_contra different
          exact List.ne_nil_of_mem (mem_waiting.mpr isWaiting) (others z isDue different)
        obtain rfl := isOne x t (due x before triggered) waited
        cases taken : (loop.events.triggerEvent true e).2 with
        | none => exact (claims.empty rfl taken).2 x t before triggered waited
        | some u =>
            obtain ⟨z, isUntriggered, isTriggered, isWaiting, counts⟩ := claims.takes u rfl taken
            obtain rfl := isOne z u (due z isUntriggered isTriggered) isWaiting
            have first := mem_waiting.mpr waited
            have second := mem_waiting.mpr isWaiting
            obtain ⟨only, isOnly⟩ := List.length_eq_one_iff.mp
              (Nat.le_antisymm single (List.length_pos_of_mem first))
            rw [isOnly, List.mem_singleton] at first second
            have count := counts z t
            rw [← count_waiting z t, isOnly, first, second, if_pos ⟨rfl, rfl⟩,
              List.count_singleton_self] at count
            rw [← List.count_pos_iff, first] at waits
            omega

/-- The driver takes a coroutine from the event that it drains, or is done with it. -/
theorem Awake.drain (awake : Awake loop) (sound : Sound loop)
    (isDraining : loop.draining = some e)
    (one : (loop.events.body e).triggered = false → loop.OneWoken e) (x : EventId) (t : τ)
    (triggered : ((loop.events.driverTrigger e).1.body x).triggered)
    (waits : .coroutine t ∈ ((loop.events.driverTrigger e).1.body x).listeners) :
    x ∈ (loop.events.driverTrigger e).1.asap ∨
      x = e ∧ (loop.events.driverTrigger e).2 ≠ none := by
  cases before : (loop.events.body e).triggered with
  | true =>
      rw [Events.driverTrigger_triggered before] at triggered waits ⊢
      cases first : Events.firstCoroutine (loop.events.body e).listeners with
      | none =>
        rw [first] at triggered waits
        refine (awake x t triggered waits).imp_right fun own => ?_
        obtain rfl := Option.some.inj (own.symm.trans isDraining)
        exact absurd waits (Events.coroutine_notMem_of_firstCoroutine first t)
      | some u =>
        rw [first] at triggered waits
        obtain ⟨_, advances⟩ := sound.consistent.removeWaiter e u
        obtain queued | ⟨triggered', waits'⟩ := advances.wakes x t triggered waits
        · exact Or.inl queued
        · refine (awake x t triggered' waits').imp id fun own => ?_
          exact ⟨Option.some.inj (own.symm.trans isDraining), Option.some_ne_none u⟩
  | false =>
      rw [Events.driverTrigger_untriggered before] at triggered waits ⊢
      refine (awake.trigger sound isDraining before (one before) x t triggered waits).imp_right ?_
      rintro rfl
      refine ⟨rfl, fun ended => ?_⟩
      have claims := Events.claims_trigger_ before
      exact (claims.empty rfl ended).2 x t before triggered (claims.mem_before waits)

theorem Awake.makeInterest (awake : Awake loop) (sound : Sound loop) (t : τ) :
    Awake (loop.makeInterest t) := by
  rw [EventLoop.makeInterest]
  split
  · exact awake
  · have advances := sound.consistent.linked.advances_alloc false 0
    exact awake.call advances rfl

theorem Awake.step {action : EventAction τ} (awake : Awake loop) (sound : Sound loop)
    (wakeable : loop.Wakeable action) (stepped : loop.step action = some after) :
    Awake after := by
  cases action with
  | newEvent =>
      obtain rfl := Option.some.inj stepped
      have advances := sound.consistent.linked.advances_alloc false 0
      exact awake.call advances rfl
  | make quorum args =>
      rw [EventLoop.step] at stepped
      split at stepped
      case isFalse => cases stepped
      case isTrue known =>
        obtain rfl := Option.some.inj stepped
        obtain ⟨_, advances⟩ := sound.consistent.make quorum args known
        exact awake.call advances rfl
  | trigger e =>
      rw [EventLoop.step] at stepped
      split at stepped
      case isFalse => cases stepped
      case isTrue inRange =>
        obtain rfl := Option.some.inj stepped
        have advances := Events.advances_trigger loop.events e
        exact awake.call advances rfl
  | asap e =>
      rw [EventLoop.step] at stepped
      split at stepped
      case isFalse => cases stepped
      case isTrue inRange =>
        obtain rfl := Option.some.inj stepped
        exact fun x t triggered waits =>
          (awake x t triggered waits).imp_left (List.mem_append_left _)
  | watch e =>
      rw [EventLoop.step] at stepped
      split at stepped
      case isFalse => cases stepped
      case isTrue inRange =>
        obtain rfl := Option.some.inj stepped
        exact awake
  | makeInterest t =>
      obtain rfl := Option.some.inj stepped
      exact awake.makeInterest sound t
  | start t =>
      rw [EventLoop.step] at stepped
      split at stepped
      case h_1 e has =>
        obtain rfl := Option.some.inj stepped
        have advances := Events.advances_trigger loop.events e
        exact awake.call advances rfl
      case h_2 =>
        obtain rfl := Option.some.inj stepped
        exact awake
  | await t e =>
      obtain ⟨middle, isMiddle, inRange, rfl⟩ := exists_of_step_await stepped
      have asked : Awake middle ∧ Sound middle := by
        rcases isMiddle with rfl | rfl
        · exact ⟨awake, sound⟩
        · exact ⟨awake.makeInterest sound t, sound.makeInterest t⟩
      obtain ⟨_, advances⟩ := asked.2.await t inRange
      exact asked.1.call advances rfl
  | cancel t e =>
      obtain rfl := Option.some.inj stepped
      obtain ⟨_, advances⟩ := sound.consistent.removeWaiter e t
      exact awake.call advances rfl
  | cull e =>
      rw [EventLoop.step] at stepped
      split at stepped
      case isFalse => cases stepped
      case isTrue =>
        obtain rfl := Option.some.inj stepped
        exact awake
  | takeAsap =>
      rw [EventLoop.step] at stepped
      split at stepped
      case h_2 => cases stepped
      case h_1 e rest isDraining queue =>
        obtain rfl := Option.some.inj stepped
        intro x t triggered waits
        have scheduled := awake x t triggered waits
        rw [queue, isDraining, List.mem_cons] at scheduled
        rcases scheduled with (rfl | queued) | noneFirst
        · exact Or.inr rfl
        · exact Or.inl queued
        · cases noneFirst
  | takeWatched e =>
      rw [EventLoop.step] at stepped
      split at stepped
      case isFalse => cases stepped
      case isTrue taken =>
        obtain rfl := Option.some.inj stepped
        intro x t triggered waits
        have scheduled := awake x t triggered waits
        rw [taken.1] at scheduled
        exact Or.inl (scheduled.resolve_right fun noneFirst => by cases noneFirst)
  | drain =>
      rw [EventLoop.step] at stepped
      split at stepped
      case h_1 => cases stepped
      case h_2 e isDraining =>
        have drained := awake.drain sound isDraining (wakeable rfl e isDraining)
        split at stepped
        case h_1 events ended =>
          rw [ended] at drained
          obtain rfl := Option.some.inj stepped
          exact fun x t triggered waits =>
            Or.inl ((drained x t triggered waits).resolve_right fun both => both.2 rfl)
        case h_2 events t claimed =>
          rw [claimed] at drained
          obtain rfl := Option.some.inj stepped
          exact fun x u triggered waits =>
            (drained x u triggered waits).imp_right fun both =>
              isDraining.trans (congrArg some both.1.symm)

/-- Coroutines do not wait in vain.  In every run in which the driver never triggers an
event above which several coroutines wait, a coroutine that waits for an event that had
to trigger is behind an event that the driver resumes coroutines from or has queued. -/
theorem scheduled_of_due {actions : List (EventAction τ)} {final : EventLoop τ}
    (run : Transition.perform step EventLoop.start actions = some final)
    (wakeable : Transition.Permitted step Wakeable EventLoop.start actions) (e : EventId) (t : τ)
    (waits : .coroutine t ∈ (final.events.body e).listeners)
    (due : Threshold.Holds (· ∈ final.fired) final.events.gate e) :
    e ∈ final.events.asap ∨ final.draining = some e := by
  have both : Sound final ∧ Awake final := by
    refine Transition.perform_induction (P := fun loop => Sound loop ∧ Awake loop)
      ?_ ⟨Sound.start, ?_⟩ wakeable run
    · exact fun _ _ _ before wakeable stepped =>
        ⟨before.1.step stepped, before.2.step before.1 wakeable stepped⟩
    · exact fun _ _ triggered _ => by cases triggered
  exact both.2 e t ((triggered_iff_due run e).mpr due) waits

/-- Two coroutines wait for a timer; the driver has resumed one of them. -/
theorem scheduled_of_due_timer :
    ∃ final : EventLoop Bool,
      Transition.perform step EventLoop.start
        [.newEvent, .await false 0, .await true 0, .watch 0, .takeWatched 0, .drain] =
          some final ∧
      (0 ∈ final.events.asap ∨ final.draining = some 0) := by
  have run : Transition.perform step (EventLoop.start : EventLoop Bool)
      [.newEvent, .await false 0, .await true 0, .watch 0, .takeWatched 0, .drain] =
        some _ := rfl
  have wakeable : Transition.Permitted step Wakeable (EventLoop.start : EventLoop Bool)
      [.newEvent, .await false 0, .await true 0, .watch 0, .takeWatched 0, .drain] := by
    iterate 5
      refine ⟨fun isDrain => (by cases isDrain), ?_⟩
      rintro _ ⟨⟩
    refine ⟨fun _ e isDraining _ => Or.inl fun x _ different => ?_, fun _ _ => trivial⟩
    obtain rfl := Option.some.inj isDraining
    -- no body but the first exists
    have early : Transition.perform step (EventLoop.start : EventLoop Bool)
        [.newEvent, .await false 0, .await true 0, .watch 0, .takeWatched 0] = some _ := rfl
    have fresh := (Sound.run early).consistent.linked.fresh x (Nat.pos_of_ne_zero different)
    exact List.filterMap_eq_nil_iff.mpr fun listener member =>
      absurd (fresh.2.2.1 ▸ member) List.not_mem_nil
  exact ⟨_, run, scheduled_of_due run wakeable 0 true (by decide) (.set (by decide))⟩

/-- The condition is needed.  A timer and a quorum above it have one waiting coroutine
each; the driver resumes the first one and forgets the other. -/
theorem exists_lost_wakeup :
    ∃ final : EventLoop Bool,
      Transition.perform step EventLoop.start
        [.newEvent, .newEvent, .make 1 [some (some 0), some (some 1)], .await false 0,
          .await true 2, .watch 0, .takeWatched 0, .drain, .drain] = some final ∧
      (final.events.body 2).triggered ∧ .coroutine true ∈ (final.events.body 2).listeners ∧
        final.events.asap = [] ∧ final.draining = none :=
  ⟨_, rfl, rfl, by decide, rfl, rfl⟩

end EventLoop

end DoomDraft.Cotamer
