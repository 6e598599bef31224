import DoomDraft.Cotamer.EventWakeups

/-!
# Calls of a program on its events

Whatever a program does with its events - making, triggering and waiting for them, alone
and in quorums - leaves quorums and members consistent and queues every event whose
coroutines can run.
-/

namespace DoomDraft.Cotamer

universe u

variable {τ : Type u}

namespace Events

variable {self : Events τ} {e q : EventId}

section Consistency

variable [DecidableEq τ] {fired : EventId → Prop}

/-- Triggering more leaves the bodies consistent. -/
theorem Linked.imp {more : EventId → Prop} {owed : List (EventId × EventId)}
    (linked : Linked fired self owed) (weaker : ∀ e, fired e → more e) :
    Linked more self owed :=
  { linked with
    due := fun e triggered => (linked.due e triggered).mono weaker
      fun _ _ inputs has => ⟨[], by rw [has, List.append_nil]⟩ }

/-- What holds of all bodies while nothing is being triggered, except that quorum `q`
may have heard of enough members. -/
structure Filling (fired : EventId → Prop) (events : Events τ) (q : EventId) : Prop where
  linked : Linked fired events []
  others : ∀ x, x ≠ q → events.Below x
  wants : ∀ x, (events.body x).wantInterest → (events.body x).isQuorum

/-- What holds of all bodies while nothing is being triggered. -/
structure Consistent (fired : EventId → Prop) (events : Events τ) : Prop where
  linked : Linked fired events []
  below : ∀ q, events.Below q
  wants : ∀ x, (events.body x).wantInterest → (events.body x).isQuorum

theorem Consistent.imp {more : EventId → Prop} (consistent : Consistent fired self)
    (weaker : ∀ e, fired e → more e) : Consistent more self :=
  { consistent with linked := consistent.linked.imp weaker }

theorem Consistent.filling (consistent : Consistent fired self) (q : EventId) :
    Filling fired self q :=
  ⟨consistent.linked, fun x _ => consistent.below x, consistent.wants⟩

theorem grows_trigger_ (drv : Bool) (self : Events τ) (e : EventId) :
    Grows self (self.triggerEvent drv e).1 :=
  grows_triggerUnlock drv self.next self e none

/-- Triggering one event leaves everything consistent. -/
theorem Filling.triggerEvent (filling : Filling fired self e)
    (untriggered : (self.body e).triggered = false) (inRange : e < self.next)
    (holds : Threshold.Holds fired self.gate e) (drv : Bool) :
    Consistent fired (self.triggerEvent drv e).1 ∧
      ((self.triggerEvent drv e).1.body e).triggered := by
  obtain ⟨linked, below, triggered⟩ := settles_triggerUnlock drv self.next self e none []
    filling.linked filling.others untriggered inRange holds (pending_le_next self)
  have grows := grows_trigger_ drv self e
  refine ⟨⟨linked, below, fun x wants => ?_⟩, triggered⟩
  rw [grows.isQuorum]
  exact filling.wants x (grows.wantInterest x ▸ wants)

theorem Consistent.trigger (consistent : Consistent fired self) (isFired : fired e)
    (inRange : e < self.next) :
    Consistent fired (self.trigger e) ∧ ((self.trigger e).body e).triggered := by
  rw [Events.trigger]
  split
  case isTrue triggered => exact ⟨consistent, triggered⟩
  case isFalse isUntriggered =>
    have untriggered := Bool.eq_false_iff.mpr isUntriggered
    exact (consistent.filling e).triggerEvent untriggered inRange (.set isFired) false

/-- A body that is new, or listeners that are coroutines, make no difference to quorums
and their members. -/
structure Alike (before after : Events τ) : Prop where
  next : before.next ≤ after.next
  triggered : ∀ e, (after.body e).triggered = (before.body e).triggered
  isQuorum : ∀ e, (after.body e).isQuorum = (before.body e).isQuorum
  quorum : ∀ e, (after.body e).quorum = (before.body e).quorum
  given : ∀ e, (after.body e).given = (before.body e).given
  count : ∀ e, (after.body e).count = (before.body e).count
  members : ∀ e, (after.body e).members = (before.body e).members
  listeners : ∀ e q, (after.body e).listeners.count (.quorum q) =
    (before.body e).listeners.count (.quorum q)
  fresh : ∀ e, after.next ≤ e → (after.body e).listeners = []

theorem Linked.alike {after : Events τ} (linked : Linked fired self [])
    (alike : Alike self after) : Linked fired after [] := by
  have gate : after.gate = self.gate := by
    funext x
    simp only [Events.gate, alike.isQuorum, alike.quorum, alike.given]
  constructor
  case fresh =>
    intro x beyond
    obtain ⟨untriggered, isPlain, _, noMembers⟩ :=
      linked.fresh x (Nat.le_trans alike.next beyond)
    rw [alike.triggered, alike.isQuorum, alike.members]
    exact ⟨untriggered, isPlain, alike.fresh x beyond, noMembers⟩
  case plain =>
    intro x isPlain
    rw [alike.members]
    exact linked.plain x (alike.isQuorum x ▸ isPlain)
  case linked =>
    intro x y
    rw [alike.members, alike.triggered, alike.listeners]
    exact linked.linked x y
  case unlinked =>
    intro x y triggered
    rw [← List.count_eq_zero, alike.listeners, List.count_eq_zero]
    exact linked.unlinked x y (alike.triggered x ▸ triggered)
  case owing =>
    intro _ _ member
    exact absurd member List.not_mem_nil
  case counted =>
    intro x isQuorum untriggered
    rw [alike.isQuorum] at isQuorum
    rw [alike.triggered] at untriggered
    obtain ⟨reported, perm, length, settled⟩ := linked.counted x isQuorum untriggered
    rw [alike.given, alike.members, alike.count]
    refine ⟨reported, perm, length, ?_⟩
    intro handle member
    have before := settled handle member
    cases handle with
    | none => rfl
    | some y => exact (alike.triggered y).trans before
  case due =>
    intro x triggered
    rw [gate]
    exact linked.due x (alike.triggered x ▸ triggered)

theorem Alike.below {after : Events τ} (alike : Alike self after) (below : self.Below q) :
    after.Below q := by
  rw [Below, alike.isQuorum, alike.triggered, alike.count, alike.quorum]
  exact below

theorem Consistent.alike {after : Events τ} (consistent : Consistent fired self)
    (alike : Alike self after)
    (wants : ∀ x, (after.body x).wantInterest → (after.body x).isQuorum) :
    Consistent fired after :=
  ⟨consistent.linked.alike alike, fun q => alike.below (consistent.below q), wants⟩

theorem Filling.alike {after : Events τ} (filling : Filling fired self q)
    (alike : Alike self after)
    (wants : ∀ x, (after.body x).wantInterest → (after.body x).isQuorum) :
    Filling fired after q :=
  ⟨filling.linked.alike alike, fun x different => alike.below (filling.others x different), wants⟩

/-- A change of the listeners, or of what the invariant does not speak of. -/
theorem Linked.alike_modify (linked : Linked fired self [])
    {change : EventBody τ → EventBody τ}
    (triggered : (change (self.body e)).triggered = (self.body e).triggered)
    (isQuorum : (change (self.body e)).isQuorum = (self.body e).isQuorum)
    (quorum : (change (self.body e)).quorum = (self.body e).quorum)
    (given : (change (self.body e)).given = (self.body e).given)
    (count : (change (self.body e)).count = (self.body e).count)
    (members : (change (self.body e)).members = (self.body e).members)
    (listeners : ∀ q, (change (self.body e)).listeners.count (.quorum q) =
      (self.body e).listeners.count (.quorum q))
    (fresh : (change (self.body e)).listeners = [] ∨ e < self.next) :
    Alike self (self.modify e change) := by
  constructor
  case next => exact Nat.le_refl _
  case fresh =>
    intro x beyond
    by_cases own : x = e
    · subst own
      rw [body_modify_self]
      exact fresh.resolve_right (Nat.not_lt_of_le beyond)
    · rw [body_modify_of_ne _ own]
      exact (linked.fresh x beyond).2.2.1
  case listeners =>
    intro x
    by_cases own : x = e
    · subst own
      rw [body_modify_self]
      exact listeners
    · rw [body_modify_of_ne _ own]
      exact fun _ => rfl
  all_goals
    intro x
    by_cases own : x = e
    · subst own
      rw [body_modify_self]
      assumption
    · rw [body_modify_of_ne _ own]

/-- A change of `ef_want_interest` and of how often `ef_interest` has been added. -/
theorem Linked.alike_flags (linked : Linked fired self []) (q : EventId)
    (wantInterest : EventBody τ → Bool) (interest : EventBody τ → Nat) :
    Alike self (self.modify q fun body =>
      { body with wantInterest := wantInterest body, interest := interest body }) := by
  apply linked.alike_modify rfl rfl rfl rfl rfl rfl (fun _ => rfl)
  rcases Nat.lt_or_ge q self.next with old | new
  · exact Or.inr old
  · exact Or.inl (linked.fresh q new).2.2.1

omit [DecidableEq τ] in
theorem wants_flags (wants : ∀ x, (self.body x).wantInterest → (self.body x).isQuorum)
    (wantInterest : EventBody τ → Bool) (interest : EventBody τ → Nat)
    (own : wantInterest (self.body q) → (self.body q).isQuorum) (x : EventId) :
    ((self.modify q fun body =>
      { body with wantInterest := wantInterest body, interest := interest body }).body
        x).wantInterest →
    ((self.modify q fun body =>
      { body with wantInterest := wantInterest body, interest := interest body }).body
        x).isQuorum := by
  by_cases same : x = q
  · subst same
    simpa using own
  · simpa [same] using wants x

/-! ## New bodies -/

omit [DecidableEq τ] in
@[simp]
theorem body_alloc_next (body : EventBody τ) : (self.alloc body).body self.next = body :=
  Function.update_self ..

omit [DecidableEq τ] in
@[simp]
theorem body_alloc_of_ne (body : EventBody τ) (different : e ≠ self.next) :
    (self.alloc body).body e = self.body e :=
  Function.update_of_ne different ..

/-- A new event or quorum has no members and no listeners. -/
theorem Linked.alloc (linked : Linked fired self []) (isQuorum : Bool) (quorum : Nat) :
    Linked fired (self.alloc { isQuorum := isQuorum, quorum := quorum }) [] := by
  obtain ⟨untriggered, isPlain, noListeners, noMembers⟩ := linked.fresh self.next (Nat.le_refl _)
  constructor
  case fresh =>
    intro x beyond
    have different : x ≠ self.next := Nat.ne_of_gt beyond
    rw [body_alloc_of_ne _ different]
    exact linked.fresh x (Nat.le_of_succ_le beyond)
  case plain =>
    intro x isPlain
    by_cases new : x = self.next
    · rw [new, body_alloc_next]
    · rw [body_alloc_of_ne _ new] at isPlain ⊢
      exact linked.plain x isPlain
  case linked =>
    intro x y
    have before := linked.linked x y
    by_cases new : x = self.next <;> by_cases new' : y = self.next
    · simp [new, new']
    · rw [new, noMembers] at before
      simpa [new, new'] using before
    · rw [new', untriggered, noListeners] at before
      simpa [new, new'] using before
    · simpa [new, new'] using before
  case unlinked =>
    intro x y triggered
    by_cases new : x = self.next
    · simp [new] at triggered
    · rw [body_alloc_of_ne _ new] at triggered ⊢
      exact linked.unlinked x y triggered
  case owing =>
    intro _ _ member
    exact absurd member List.not_mem_nil
  case counted =>
    intro x isQuorum untriggered'
    by_cases new : x = self.next
    · exact ⟨[], by simp [new], by simp [new], fun _ member => absurd member List.not_mem_nil⟩
    · rw [body_alloc_of_ne _ new] at isQuorum untriggered' ⊢
      obtain ⟨reported, perm, length, settled⟩ := linked.counted x isQuorum untriggered'
      refine ⟨reported, perm, length, ?_⟩
      intro handle member
      have before := settled handle member
      cases handle with
      | none => rfl
      | some y =>
          have old : y ≠ self.next := by
            rintro rfl
            simp [Events.settled, untriggered] at before
          rw [Events.settled, body_alloc_of_ne _ old]
          exact before
  case due =>
    intro x triggered
    have old : x ≠ self.next := by
      rintro rfl
      simp at triggered
    rw [body_alloc_of_ne _ old] at triggered
    refine (linked.due x triggered).mono (fun _ => id) ?_
    intro y threshold inputs has
    have existed : y ≠ self.next := by
      rintro rfl
      simp [gate, isPlain] at has
    refine ⟨[], ?_⟩
    rw [List.append_nil, ← has, gate, gate, body_alloc_of_ne _ existed]

theorem Consistent.alloc (consistent : Consistent fired self) :
    Consistent fired (self.alloc {}) := by
  refine ⟨consistent.linked.alloc false 0, fun q => ?_, fun q => ?_⟩
  · by_cases new : q = self.next
    · intro isQuorum
      simp [new] at isQuorum
    · rw [Below, body_alloc_of_ne _ new]
      exact consistent.below q
  · by_cases new : q = self.next
    · simp [new]
    · rw [body_alloc_of_ne _ new]
      exact consistent.wants q

/-! ## New members -/

/-- What `add_member` does to the bodies. -/
structure Joined (q : EventId) (handle : EventHandle) (before after : Events τ) : Prop where
  next : after.next = before.next
  asap : after.asap = before.asap
  triggered : ∀ e, (after.body e).triggered = (before.body e).triggered
  isQuorum : ∀ e, (after.body e).isQuorum = (before.body e).isQuorum
  quorum : ∀ e, (after.body e).quorum = (before.body e).quorum
  wantInterest : ∀ e, (after.body e).wantInterest →
    (before.body e).wantInterest ∨ e = q
  given : ∀ e, (after.body e).given =
    if e = q then (before.body e).given ++ [handle] else (before.body e).given
  count : ∀ e, (after.body e).count =
    if e = q ∧ before.settled handle then (before.body e).count + 1 else (before.body e).count
  members : ∀ e, (after.body e).members =
    if e = q ∧ before.settled handle = false then (before.body e).members ++ handle.toList
    else (before.body e).members
  listeners : ∀ e, (after.body e).listeners =
    if some e = handle ∧ before.settled handle = false then
      (before.body e).listeners ++ [.quorum q]
    else (before.body e).listeners

omit [DecidableEq τ] in
theorem joined_addMember (self : Events τ) (q : EventId) (handle : EventHandle) :
    Joined q handle self (self.addMember q handle) := by
  cases handle with
  | none =>
      constructor
      case next => rfl
      case asap => rfl
      all_goals
        intro x
        by_cases own : x = q
        · subst own
          simp [addMember, settled]
        · simp [addMember, settled, own]
  | some e =>
      cases triggered : (self.body e).triggered with
      | true =>
          have isTriggered : ((self.modify q fun body =>
              { body with given := body.given ++ [some e] }).body e).triggered = true := by
            by_cases own : e = q
            · subst own
              simpa using triggered
            · simpa [own] using triggered
          constructor
          case next => simp [addMember, isTriggered]
          case asap => simp [addMember, isTriggered]
          all_goals
            intro x
            by_cases own : x = q
            · subst own
              simp [addMember, settled, isTriggered, triggered]
            · simp [addMember, settled, isTriggered, triggered, own]
      | false =>
          have isUntriggered : ((self.modify q fun body =>
              { body with given := body.given ++ [some e] }).body e).triggered = false := by
            by_cases own : e = q
            · subst own
              simpa using triggered
            · simpa [own] using triggered
          constructor
          case next => simp [addMember, isUntriggered, addListener]
          case asap => simp [addMember, isUntriggered, addListener]
          all_goals
            intro x
            by_cases own : x = q <;> by_cases isMember : x = e
            · subst own
              subst isMember
              simp [addMember, settled, addListener, triggered]
            · subst own
              simp [addMember, settled, isUntriggered, addListener, triggered, isMember]
            · subst isMember
              simp [addMember, settled, addListener, triggered, own]
            · simp [addMember, settled, isUntriggered, addListener, triggered, own, isMember]

omit [DecidableEq τ] in
theorem Joined.settled {handle other : EventHandle} {after : Events τ}
    (joined : Joined q handle self after) : after.settled other = self.settled other := by
  cases other with
  | none => rfl
  | some e => exact joined.triggered e

/-- A new member has the quorum among its listeners, or is counted at once. -/
theorem Joined.linked {handle : EventHandle} {after : Events τ}
    (joined : Joined q handle self after)
    (linked : Linked fired self []) (isQuorum : (self.body q).isQuorum)
    (known : ∀ e ∈ handle, e < self.next) : Linked fired after [] := by
  constructor
  case fresh =>
    intro x beyond
    rw [joined.next] at beyond
    obtain ⟨untriggered, isPlain, noListeners, noMembers⟩ := linked.fresh x beyond
    have isOther : x ≠ q := by
      rintro rfl
      simp [isPlain] at isQuorum
    have noMember : ¬(some x = handle ∧ self.settled handle = false) := by
      rintro ⟨rfl, _⟩
      exact absurd (known x rfl) (Nat.not_lt_of_le beyond)
    rw [joined.triggered, joined.isQuorum, joined.listeners, joined.members, if_neg noMember,
      if_neg (isOther ·.1)]
    exact ⟨untriggered, isPlain, noListeners, noMembers⟩
  case plain =>
    intro x isPlain
    rw [joined.isQuorum] at isPlain
    have isOther : x ≠ q := by
      rintro rfl
      simp [isPlain] at isQuorum
    rw [joined.members, if_neg (isOther ·.1)]
    exact linked.plain x isPlain
  case linked =>
    intro x y
    have before := linked.linked x y
    rw [joined.members, joined.triggered, joined.listeners]
    cases isSettled : self.settled handle with
    | true => simpa using before
    | false =>
        cases handle with
        | none => cases isSettled
        | some e =>
            have untriggered : (self.body e).triggered = false := isSettled
            by_cases own : x = q <;> by_cases isMember : y = e
            · subst own
              subst isMember
              simpa [untriggered] using before
            · subst own
              simpa [isMember, Ne.symm isMember] using before
            · subst isMember
              simpa [untriggered, own, Ne.symm own] using before
            · simpa [own, isMember] using before
  case unlinked =>
    intro x y triggered
    rw [joined.triggered] at triggered
    have noMember : ¬(some x = handle ∧ self.settled handle = false) := by
      rintro ⟨rfl, untriggered⟩
      exact absurd triggered (Bool.eq_false_iff.mp untriggered)
    rw [joined.listeners, if_neg noMember]
    exact linked.unlinked x y triggered
  case owing =>
    intro _ _ member
    exact absurd member List.not_mem_nil
  case counted =>
    intro x isQuorum' untriggered
    rw [joined.isQuorum] at isQuorum'
    rw [joined.triggered] at untriggered
    obtain ⟨reported, perm, length, settled⟩ := linked.counted x isQuorum' untriggered
    have settled' : ∀ other ∈ reported, after.settled other :=
      fun other member => joined.settled.trans (settled other member)
    rw [joined.given, joined.members, joined.count]
    by_cases own : x = q
    · subst own
      cases isSettled : self.settled handle with
      | true =>
          refine ⟨handle :: reported, ?_, by simp [length], ?_⟩
          · simp only [if_true, Bool.true_eq_false, and_false, if_false]
            exact (List.perm_append_singleton handle _).trans (perm.cons handle)
          · rw [List.forall_mem_cons]
            exact ⟨joined.settled.trans isSettled, settled'⟩
      | false =>
          cases handle with
          | none => cases isSettled
          | some e =>
              refine ⟨reported, ?_, by simp [length], settled'⟩
              simp only [if_true, and_true, Option.toList_some, List.map_append, List.map_cons,
                List.map_nil]
              rw [← List.append_assoc]
              exact perm.append_right [some e]
    · simp only [own, if_false, false_and]
      exact ⟨reported, perm, length, settled'⟩
  case due =>
    intro x triggered
    rw [joined.triggered] at triggered
    refine (linked.due x triggered).mono (fun _ => id) ?_
    intro y threshold inputs has
    rw [gate] at has ⊢
    rw [joined.isQuorum, joined.quorum, joined.given]
    by_cases own : y = q
    · subst own
      rw [if_pos isQuorum, Option.some.injEq, Prod.mk.injEq] at has
      exact ⟨[handle], by rw [if_pos isQuorum, if_pos rfl, has.1, has.2]⟩
    · exact ⟨[], by rw [if_neg own, has, List.append_nil]⟩

omit [DecidableEq τ] in
theorem Joined.below {handle : EventHandle} {after : Events τ} (joined : Joined q handle self after)
    (below : self.Below e) (different : e ≠ q) : after.Below e := by
  rw [Below, joined.isQuorum, joined.triggered, joined.count, joined.quorum, if_neg (different ·.1)]
  exact below

/-! ## Calls of the program -/

/-- No event is forgotten or untriggered, and what joins the queue has triggered. -/
structure Follows (before after : Events τ) : Prop where
  next : before.next ≤ after.next
  triggered : ∀ e, (before.body e).triggered → (after.body e).triggered
  posted : ∀ e ∈ after.asap, e ∈ before.asap ∨ (after.body e).triggered

omit [DecidableEq τ] in
theorem Grows.follows {after : Events τ} (grows : Grows self after) : Follows self after :=
  ⟨Nat.le_of_eq grows.next.symm, grows.triggered, grows.posted⟩

/-- What the calls of a program do, beside: they schedule whom they wake. -/
structure Advances (before after : Events τ) : Prop extends Follows before after where
  isQuorum : ∀ e, (before.body e).isQuorum → (after.body e).isQuorum
  asap : before.asap ⊆ after.asap
  wakes : Wakes before after

section

variable {first second third : Events τ}

omit [DecidableEq τ] in
theorem Advances.refl (self : Events τ) : Advances self self :=
  ⟨(Grows.refl self).follows, fun _ => id, List.Subset.refl _, Wakes.refl self⟩

omit [DecidableEq τ] in
theorem Advances.trans (early : Advances first second) (late : Advances second third) :
    Advances first third where
  next := Nat.le_trans early.next late.next
  isQuorum e isQuorum := late.isQuorum e (early.isQuorum e isQuorum)
  triggered e triggered := late.triggered e (early.triggered e triggered)
  asap := List.Subset.trans early.asap late.asap
  posted e isPosted := (late.posted e isPosted).elim
    (fun before => (early.posted e before).imp_right (late.triggered e)) Or.inr
  wakes := early.wakes.trans late.wakes late.asap

omit [DecidableEq τ] in
/-- Nothing triggers, and nobody begins to wait for an event that has. -/
theorem Advances.of_same (next : first.next ≤ second.next)
    (isQuorum : ∀ e, (first.body e).isQuorum → (second.body e).isQuorum)
    (triggered : ∀ e, (second.body e).triggered = (first.body e).triggered)
    (asap : second.asap = first.asap)
    (listeners : ∀ e t, (first.body e).triggered → .coroutine t ∈ (second.body e).listeners →
      .coroutine t ∈ (first.body e).listeners) : Advances first second where
  next := next
  isQuorum := isQuorum
  triggered e isTriggered := by rwa [triggered]
  asap := asap ▸ List.Subset.refl _
  posted e isPosted := Or.inl (asap ▸ isPosted)
  wakes x t isTriggered waits := by
    rw [triggered] at isTriggered
    exact Or.inr ⟨isTriggered, listeners x t isTriggered waits⟩

end

theorem advances_trigger_ (self : Events τ) (e : EventId) :
    Advances self (self.triggerEvent false e).1 := by
  have grows := grows_trigger_ false self e
  exact ⟨grows.follows, fun x isQuorum => grows.isQuorum x ▸ isQuorum, grows.asap,
    wakes_triggerUnlock self.next self e none⟩

theorem advances_trigger (self : Events τ) (e : EventId) : Advances self (self.trigger e) := by
  rw [trigger]
  split
  · exact Advances.refl self
  · exact advances_trigger_ self e

/-- The state of a quorum while members are added, since it was `before`. -/
structure Filled (fired : EventId → Prop) (q : EventId) (before after : Events τ) : Prop
    extends Filling fired after q where
  advances : Advances before after
  isQuorum : (after.body q).isQuorum
  untriggered : (after.body q).triggered = false

variable {before : Events τ} {handle : EventHandle}

theorem Filled.addMember (filled : Filled fired q before self)
    (known : ∀ e ∈ handle, e < self.next) : Filled fired q before (self.addMember q handle) := by
  have joined := joined_addMember self q handle
  refine ⟨⟨?linked, ?others, ?wants⟩, ?advances, ?isQuorum, ?untriggered⟩
  case linked => exact joined.linked filled.linked filled.isQuorum known
  case others => exact fun x different => joined.below (filled.others x different) different
  case wants =>
    intro x wanted
    rw [joined.isQuorum]
    rcases joined.wantInterest x wanted with already | own
    · exact filled.wants x already
    · exact own ▸ filled.isQuorum
  case advances =>
    apply filled.advances.trans
    apply Advances.of_same (Nat.le_of_eq joined.next.symm) _ joined.triggered joined.asap
    · intro x t _ waits
      rw [joined.listeners] at waits
      split at waits
      · exact (List.mem_append.mp waits).resolve_right (by simp)
      · exact waits
    · exact fun x isQuorum => joined.isQuorum x ▸ isQuorum
  case isQuorum => exact joined.isQuorum q ▸ filled.isQuorum
  case untriggered => exact joined.triggered q ▸ filled.untriggered

theorem Filled.flags (filled : Filled fired q before self) (wantInterest : EventBody τ → Bool)
    (interest : EventBody τ → Nat) :
    Filled fired q before (self.modify q fun body =>
      { body with wantInterest := wantInterest body, interest := interest body }) := by
  have alike := filled.linked.alike_flags q wantInterest interest
  refine ⟨filled.toFilling.alike alike ?_, filled.advances.trans ?_, ?_, ?_⟩
  · exact wants_flags filled.wants wantInterest interest fun _ => filled.isQuorum
  · apply Advances.of_same alike.next _ alike.triggered rfl
    · intro x t _ waits
      by_cases own : x = q
      · subst own
        simpa using waits
      · simpa [own] using waits
    · exact fun x isQuorum => alike.isQuorum x ▸ isQuorum
  · exact alike.isQuorum q ▸ filled.isQuorum
  · exact alike.triggered q ▸ filled.untriggered

/-- A quorum that has heard of enough members triggers. -/
theorem Filled.sealQuorum (filled : Filled fired q before self) :
    Consistent fired (self.sealQuorum q) ∧ Advances before (self.sealQuorum q) := by
  rw [Events.sealQuorum]
  split
  case isTrue enough =>
    have inRange : q < self.next := by
      by_contra beyond
      have isPlain := (filled.linked.fresh q (Nat.le_of_not_lt beyond)).2.1
      exact Bool.false_ne_true (isPlain.symm.trans filled.isQuorum)
    have holds := filled.linked.holds_of_count filled.isQuorum filled.untriggered enough
    exact ⟨(filled.toFilling.triggerEvent filled.untriggered inRange holds false).1,
      filled.advances.trans (advances_trigger_ self q)⟩
  case isFalse short =>
    refine ⟨⟨filled.linked, fun x => ?_, filled.wants⟩, filled.advances⟩
    by_cases own : x = q
    · exact fun _ _ => own ▸ Nat.lt_of_not_le short
    · exact filled.others x own

theorem Filled.args (args : List (Option EventHandle)) (filled : Filled fired q before self)
    (known : ∀ arg ∈ args, ∀ handle ∈ arg, ∀ e ∈ handle, e < self.next) :
    Filled fired q before (args.foldl (fun self arg => match arg with
      | none => self.addInterest q
      | some handle => self.addMember q handle) self) := by
  induction args generalizing self with
  | nil => exact filled
  | cons arg rest ih =>
      rw [List.forall_mem_cons] at known
      cases arg with
      | none => exact ih (filled.flags (fun _ => true) fun body => body.interest + 1) known.2
      | some handle =>
          apply ih (filled.addMember (known.1 handle rfl))
          rw [(joined_addMember self q handle).next]
          exact known.2

theorem Linked.advances_alloc (linked : Linked fired self []) (isQuorum : Bool) (quorum : Nat) :
    Advances self (self.alloc { isQuorum := isQuorum, quorum := quorum }) := by
  obtain ⟨untriggered, isPlain, _⟩ := linked.fresh self.next (Nat.le_refl _)
  apply Advances.of_same (Nat.le_succ _)
  · intro x isQuorum
    have old : x ≠ self.next := by
      rintro rfl
      exact Bool.false_ne_true (isPlain.symm.trans isQuorum)
    rwa [body_alloc_of_ne _ old]
  · intro x
    by_cases new : x = self.next
    · rw [new, body_alloc_next, untriggered]
    · rw [body_alloc_of_ne _ new]
  · rfl
  · intro x t _ waits
    by_cases new : x = self.next
    · simp [new] at waits
    · rwa [body_alloc_of_ne _ new] at waits

/-- `make` leaves everything consistent. -/
theorem Consistent.make (consistent : Consistent fired self) (quorum : Nat)
    (args : List (Option EventHandle))
    (known : ∀ arg ∈ args, ∀ handle ∈ arg, ∀ e ∈ handle, e < self.next) :
    Consistent fired (self.make quorum args) ∧ Advances self (self.make quorum args) := by
  have linked := consistent.linked.alloc true quorum
  have filled : Filled fired self.next self
      (self.alloc { isQuorum := true, quorum := quorum }) := by
    refine ⟨⟨linked, fun x old => ?_, fun x => ?_⟩, ?_, ?_, ?_⟩
    · rw [Below, body_alloc_of_ne _ old]
      exact consistent.below x
    · by_cases new : x = self.next
      · simp [new]
      · rw [body_alloc_of_ne _ new]
        exact consistent.wants x
    · exact consistent.linked.advances_alloc true quorum
    · simp
    · simp
  apply Filled.sealQuorum
  apply filled.args args
  exact fun arg member handle isHandle e isEvent =>
    Nat.lt_succ_of_lt (known arg member handle isHandle e isEvent)

theorem Filled.applyInterest (n : Nat) (filled : Filled fired q before self)
    (known : ∀ e ∈ handle, e < self.next) :
    Filled fired q before (applyInterest q handle n self) := by
  induction n generalizing self with
  | zero => exact filled
  | succ n ih =>
      have marked := filled.flags EventBody.wantInterest fun _ => n
      have joined := joined_addMember
        (self.modify q fun body => { body with interest := n }) q handle
      exact ih (marked.addMember known) (joined.next ▸ known)

/-- What the recursion of `fix_want_interest` keeps. -/
def Keeps (fired : EventId → Prop) (handle : EventHandle)
    (fix : Events τ → EventId → Events τ) : Prop :=
  ∀ (self : Events τ) (q : EventId), Consistent fired self → (self.body q).isQuorum →
    (∀ e ∈ handle, e < self.next) → Consistent fired (fix self q) ∧ Advances self (fix self q)

theorem Keeps.foldl {fix : Events τ → EventId → Events τ} (keeps : Keeps fired handle fix)
    (members : List EventId) (consistent : Consistent fired self)
    (isQuorum : ∀ m ∈ members, (self.body m).isQuorum) (known : ∀ e ∈ handle, e < self.next) :
    Consistent fired (members.foldl fix self) ∧ Advances self (members.foldl fix self) := by
  induction members generalizing self with
  | nil => exact ⟨consistent, Advances.refl self⟩
  | cons m rest ih =>
      rw [List.forall_mem_cons] at isQuorum
      obtain ⟨consistent', advances⟩ := keeps self m consistent isQuorum.1 known
      obtain ⟨consistent'', advances'⟩ := ih consistent'
        (fun other member => advances.isQuorum other (isQuorum.2 other member))
        fun e isHandle => Nat.lt_of_lt_of_le (known e isHandle) advances.next
      exact ⟨consistent'', advances.trans advances'⟩

/-- `fix_want_interest` leaves everything consistent. -/
theorem keeps_fixWantInterest (handle : EventHandle) (n : Nat) :
    Keeps fired handle (fixWantInterest handle n (τ := τ)) := by
  induction n with
  | zero => exact fun self q consistent _ _ => ⟨consistent, Advances.refl self⟩
  | succ n ih =>
      intro self q consistent isQuorum known
      have alike := consistent.linked.alike_flags q (fun _ => false) EventBody.interest
      have unmarked : Consistent fired
          (self.modify q fun body => { body with wantInterest := false }) :=
        consistent.alike alike (wants_flags consistent.wants (fun _ => false) EventBody.interest
          fun wanted => by cases wanted)
      have advances : Advances self
          (self.modify q fun body => { body with wantInterest := false }) := by
        apply Advances.of_same alike.next _ alike.triggered rfl
        · intro x t _ waits
          by_cases own : x = q
          · subst own
            simpa using waits
          · simpa [own] using waits
        · exact fun x isQuorum => alike.isQuorum x ▸ isQuorum
      rw [Events.fixWantInterest]
      split
      case isTrue => exact ⟨unmarked, advances⟩
      case isFalse untriggered =>
        have opened : Filled fired q self
            (self.modify q fun body => { body with wantInterest := false }) :=
          ⟨unmarked.filling q, advances, advances.isQuorum q isQuorum,
            Bool.eq_false_iff.mpr untriggered⟩
        have filled := opened.applyInterest (((self.modify q fun body =>
          { body with wantInterest := false }).body q).interest) known
        have sealed := filled.sealQuorum
        rw [sealQuorum] at sealed
        dsimp only
        split
        case isTrue enough =>
          rw [if_pos enough] at sealed
          exact sealed
        case isFalse short =>
          rw [if_neg short] at sealed
          refine And.imp_right sealed.2.trans (ih.foldl _ sealed.1 ?_ ?_)
          · exact fun m member => sealed.1.wants m (List.mem_filter.mp member).2
          · exact fun e isHandle => Nat.lt_of_lt_of_le (known e isHandle) sealed.2.next

theorem Consistent.addWaiter (consistent : Consistent fired self) (t : τ)
    (untriggered : (self.body e).triggered = false) (inRange : e < self.next) :
    Consistent fired (self.addListener e (.coroutine t)) ∧
      Advances self (self.addListener e (.coroutine t)) := by
  have alike : Alike self (self.addListener e (.coroutine t)) := by
    apply consistent.linked.alike_modify rfl rfl rfl rfl rfl rfl _ (Or.inr inRange)
    intro q
    rw [List.count_append, List.count_singleton]
    simp
  refine ⟨consistent.alike alike ?_, ?_⟩
  · intro x
    by_cases own : x = e
    · subst own
      simpa [addListener] using consistent.wants x
    · simpa [addListener, own] using consistent.wants x
  · apply Advances.of_same alike.next _ alike.triggered rfl
    · intro x u triggered waits
      have different : x ≠ e := by
        rintro rfl
        exact Bool.false_ne_true (untriggered.symm.trans triggered)
      simpa [addListener, different] using waits
    · exact fun x isQuorum => alike.isQuorum x ▸ isQuorum

/-- Waiting for an event leaves everything consistent. -/
theorem Consistent.await (consistent : Consistent fired self) (t : τ)
    (known : ∀ e ∈ handle, e < self.next) (inRange : e < self.next) :
    Consistent fired (self.await t handle e) ∧ Advances self (self.await t handle e) := by
  have fixed : Consistent fired (if (self.body e).wantInterest then
        fixWantInterest handle self.next self e else self) ∧
      Advances self (if (self.body e).wantInterest then
        fixWantInterest handle self.next self e else self) := by
    split
    case isTrue wants =>
      exact keeps_fixWantInterest handle self.next self e consistent (consistent.wants e wants)
        known
    case isFalse => exact ⟨consistent, Advances.refl self⟩
  rw [Events.await]
  split
  case isTrue => exact ⟨consistent, Advances.refl self⟩
  case isFalse =>
    dsimp only
    generalize (if (self.body e).wantInterest then
      fixWantInterest handle self.next self e else self) = middle at fixed ⊢
    split
    case isTrue => exact fixed
    case isFalse untriggered =>
      obtain ⟨consistent', advances⟩ := fixed.1.addWaiter t (Bool.eq_false_iff.mpr untriggered)
        (Nat.lt_of_lt_of_le inRange fixed.2.next)
      exact ⟨consistent', fixed.2.trans advances⟩

/-- A coroutine that is destroyed stops waiting. -/
theorem Consistent.removeWaiter (consistent : Consistent fired self) (e : EventId) (t : τ) :
    Consistent fired (self.removeListener e (.coroutine t)) ∧
      Advances self (self.removeListener e (.coroutine t)) := by
  have perm := swapRemove_perm (.coroutine t) (self.body e).listeners
  have alike : Alike self (self.removeListener e (.coroutine t)) := by
    apply consistent.linked.alike_modify rfl rfl rfl rfl rfl rfl
    · intro q
      rw [perm.count_eq, List.count_erase_of_ne (coroutine_ne_quorum t q).symm]
    · rcases Nat.lt_or_ge e self.next with old | new
      · exact Or.inr old
      · rw [(consistent.linked.fresh e new).2.2.1]
        exact Or.inl rfl
  refine ⟨consistent.alike alike ?_, ?_⟩
  · intro x
    by_cases own : x = e
    · subst own
      simpa [removeListener] using consistent.wants x
    · simpa [removeListener, own] using consistent.wants x
  · apply Advances.of_same alike.next _ alike.triggered rfl
    · intro x u _ waits
      by_cases own : x = e
      · subst own
        rw [removeListener, body_modify_self, perm.mem_iff] at waits
        exact List.mem_of_mem_erase waits
      · simpa [removeListener, own] using waits
    · exact fun x isQuorum => alike.isQuorum x ▸ isQuorum

end Consistency

end Events

end DoomDraft.Cotamer
