import Mathlib.Data.List.Count
import Mathlib.Data.List.Perm.Basic
import DoomDraft.Cotamer.Events
import DoomDraft.Foundation.Threshold

/-!
# Quorums and their members

A quorum that has not triggered is a listener of exactly the members that it still has,
and counts the others.  While an event is being triggered the quorums above it have not
all been told; what is still owed to them is part of the invariant.
-/

namespace DoomDraft.Cotamer

universe u

theorem swapBack_perm {α : Type u} (rest : List α) : (swapBack rest).Perm rest := by
  rcases List.eq_nil_or_concat rest with rfl | ⟨front, last, rfl⟩
  · exact List.Perm.refl _
  · simp only [swapBack, List.concat_eq_append, List.getLast?_concat, List.dropLast_concat]
    exact (List.perm_append_singleton last front).symm

theorem swapRemove_perm {α : Type u} [DecidableEq α] (x : α) (xs : List α) :
    (swapRemove x xs).Perm (xs.erase x) := by
  induction xs with
  | nil => exact List.Perm.refl _
  | cons y rest ih =>
      rw [swapRemove]
      by_cases same : y = x
      · rw [if_pos same, same, List.erase_cons_head]
        exact swapBack_perm rest
      · rw [if_neg same, List.erase_cons_tail (by simpa using same)]
        exact ih.cons y

theorem coroutine_ne_quorum {τ : Type u} (t : τ) (q : EventId) :
    Listener.coroutine t ≠ Listener.quorum q :=
  fun same => by cases same

namespace Events

variable {τ : Type u} {self : Events τ} {e q : EventId}

@[simp]
theorem body_modify_self (change : EventBody τ → EventBody τ) :
    (self.modify e change).body e = change (self.body e) :=
  Function.update_self ..

@[simp]
theorem body_modify_of_ne {x : EventId} (change : EventBody τ → EventBody τ) (different : x ≠ e) :
    (self.modify e change).body x = self.body x :=
  Function.update_of_ne different ..

@[simp]
theorem next_modify (change : EventBody τ → EventBody τ) :
    (self.modify e change).next = self.next :=
  rfl

@[simp]
theorem asap_modify (change : EventBody τ → EventBody τ) :
    (self.modify e change).asap = self.asap :=
  rfl

/-- The requirement of a quorum, over all members that it has been given. -/
def gate (self : Events τ) (q : EventId) : Option (Threshold.Gate EventId) :=
  if (self.body q).isQuorum then some ((self.body q).quorum, (self.body q).given) else none

/-! ## What triggering leaves alone -/

/-- Triggering an event makes no body and no member, and no event untriggered again. -/
structure Grows (before after : Events τ) : Prop where
  next : after.next = before.next
  isQuorum : ∀ e, (after.body e).isQuorum = (before.body e).isQuorum
  quorum : ∀ e, (after.body e).quorum = (before.body e).quorum
  given : ∀ e, (after.body e).given = (before.body e).given
  wantInterest : ∀ e, (after.body e).wantInterest = (before.body e).wantInterest
  triggered : ∀ e, (before.body e).triggered → (after.body e).triggered
  asap : before.asap ⊆ after.asap
  posted : ∀ e ∈ after.asap, e ∈ before.asap ∨ (after.body e).triggered

variable {first second third : Events τ}

theorem Grows.refl (self : Events τ) : Grows self self :=
  ⟨rfl, fun _ => rfl, fun _ => rfl, fun _ => rfl, fun _ => rfl, fun _ => id,
    List.Subset.refl _, fun _ => Or.inl⟩

theorem Grows.trans (early : Grows first second) (late : Grows second third) :
    Grows first third where
  next := late.next.trans early.next
  isQuorum e := (late.isQuorum e).trans (early.isQuorum e)
  quorum e := (late.quorum e).trans (early.quorum e)
  given e := (late.given e).trans (early.given e)
  wantInterest e := (late.wantInterest e).trans (early.wantInterest e)
  triggered e isTriggered := late.triggered e (early.triggered e isTriggered)
  asap := List.Subset.trans early.asap late.asap
  posted e isPosted := (late.posted e isPosted).elim
    (fun before => (early.posted e before).imp_right (late.triggered e)) Or.inr

theorem Grows.gate (grows : Grows first second) : second.gate = first.gate := by
  funext q
  simp only [Events.gate, grows.isQuorum, grows.quorum, grows.given]

theorem Grows.settled (grows : Grows first second) {handle : EventHandle}
    (isSettled : first.settled handle) : second.settled handle := by
  cases handle with
  | none => rfl
  | some e => exact grows.triggered e isSettled

/-- A change of the lists and the count of one body. -/
theorem Grows.modify {change : EventBody τ → EventBody τ}
    (isQuorum : (change (self.body e)).isQuorum = (self.body e).isQuorum)
    (quorum : (change (self.body e)).quorum = (self.body e).quorum)
    (given : (change (self.body e)).given = (self.body e).given)
    (wantInterest : (change (self.body e)).wantInterest = (self.body e).wantInterest)
    (triggered : (self.body e).triggered → (change (self.body e)).triggered) :
    Grows self (self.modify e change) := by
  constructor
  case next => rfl
  case asap => exact List.Subset.refl _
  case posted => exact fun x => Or.inl
  case triggered =>
    intro x
    by_cases same : x = e
    · subst same
      rw [body_modify_self]
      exact triggered
    · rw [body_modify_of_ne _ same]
      exact id
  all_goals
    intro x
    by_cases same : x = e
    · subst same
      rw [body_modify_self]
      assumption
    · rw [body_modify_of_ne _ same]

section Culling

variable [DecidableEq τ]

/-- What `cull_members` does to all bodies, where `rest` are the members of `q`. -/
structure Culled (q : EventId) (rest kept : List EventId) (before after : Events τ) : Prop
    extends Grows before after where
  kept : kept.Perm (rest.filter fun m => (before.body m).triggered)
  same : ∀ e, (after.body e).triggered = (before.body e).triggered
  members : ∀ e, (after.body e).members = (before.body e).members
  count : ∀ e, (after.body e).count = (before.body e).count
  listeners : ∀ e listener, (after.body e).listeners.count listener =
    (before.body e).listeners.count listener -
      if (before.body e).triggered = false ∧ listener = .quorum q then rest.count e else 0

theorem culled_cullLoop (q : EventId) (n : Nat) (self : Events τ) (rest : List EventId)
    (enough : rest.length ≤ n) :
    Culled q rest (cullLoop q n self rest).2 self (cullLoop q n self rest).1 := by
  induction n generalizing self rest with
  | zero =>
      obtain rfl := List.length_eq_zero_iff.mp (Nat.le_zero.mp enough)
      exact ⟨Grows.refl self, List.Perm.refl _, fun _ => rfl, fun _ => rfl, fun _ => rfl,
        fun _ _ => by simp [cullLoop]⟩
  | succ n ih =>
      cases rest with
      | nil =>
          exact ⟨Grows.refl self, List.Perm.refl _, fun _ => rfl, fun _ => rfl, fun _ => rfl,
            fun _ _ => by simp [cullLoop]⟩
      | cons m rest =>
          have shorter : rest.length ≤ n := Nat.le_of_succ_le_succ enough
          rw [cullLoop]
          by_cases triggered : (self.body m).triggered
          · -- a member that is being triggered stays
            rw [if_pos triggered]
            have culled := ih self rest shorter
            refine { culled with kept := ?_, listeners := ?_ }
            · rw [List.filter_cons_of_pos (p := fun m => (self.body m).triggered) triggered]
              exact culled.kept.cons m
            · intro e listener
              rw [culled.listeners e listener]
              by_cases same : e = m
              · subst same
                simp [triggered]
              · rw [List.count_cons_of_ne (Ne.symm same)]
          · -- another one loses the quorum among its listeners
            rw [if_neg triggered]
            have perm := swapBack_perm rest
            have culled := ih (self.removeListener m (.quorum q)) (swapBack rest)
              (perm.length_eq ▸ shorter)
            have grows : Grows self (self.removeListener m (.quorum q)) :=
              Grows.modify rfl rfl rfl rfl id
            have other : ∀ e, e ≠ m →
                (self.removeListener m (.quorum q)).body e = self.body e :=
              fun e different => body_modify_of_ne _ different
            have own : (self.removeListener m (.quorum q)).body m =
                { self.body m with listeners := swapRemove (.quorum q) (self.body m).listeners } :=
              body_modify_self _
            have same : ∀ e, ((self.removeListener m (.quorum q)).body e).triggered =
                (self.body e).triggered := by
              intro e
              by_cases isMember : e = m
              · rw [isMember, own]
              · rw [other e isMember]
            refine ⟨grows.trans culled.toGrows, ?_, ?_, ?_, ?_, ?_⟩
            · rw [List.filter_cons_of_neg (p := fun m => (self.body m).triggered) triggered]
              refine culled.kept.trans ?_
              simp only [same]
              exact perm.filter _
            · exact fun e => (culled.same e).trans (same e)
            · intro e
              rw [culled.members]
              by_cases isMember : e = m
              · rw [isMember, own]
              · rw [other e isMember]
            · intro e
              rw [culled.count]
              by_cases isMember : e = m
              · rw [isMember, own]
              · rw [other e isMember]
            · intro e listener
              rw [culled.listeners, same, perm.count_eq]
              by_cases isMember : e = m
              · subst isMember
                rw [own, List.count_cons_self]
                simp only [(swapRemove_perm _ _).count_eq, List.count_erase]
                by_cases isQuorum : listener = .quorum q
                · subst isQuorum
                  simp [triggered]
                  omega
                · have ne : (Listener.quorum q == listener) = false := by
                    simpa using Ne.symm isQuorum
                  simp [isQuorum, ne]
              · rw [other e isMember, List.count_cons_of_ne (Ne.symm isMember)]

/-- The bodies when `trigger_unlock` goes through the listeners of `e`. -/
def culled (self : Events τ) (e : EventId) : Events τ :=
  if (self.body e).isQuorum then self.cullMembers e else self

theorem cullMembers_spec (self : Events τ) (q : EventId) :
    ∃ kept after, Culled q (self.body q).members kept self after ∧
      self.cullMembers q = after.modify q fun body => { body with members := kept } :=
  ⟨_, _, culled_cullLoop q _ self _ (Nat.le_refl _), rfl⟩

/-- Culling changes listeners and members only. -/
structure Culls (e : EventId) (before after : Events τ) : Prop extends Grows before after where
  same : ∀ x, (after.body x).triggered = (before.body x).triggered
  count : ∀ x, (after.body x).count = (before.body x).count
  members : ∀ x, x ≠ e → (after.body x).members = (before.body x).members
  coroutines : ∀ x t, (after.body x).listeners.count (.coroutine t) =
    (before.body x).listeners.count (.coroutine t)

theorem culls_culled (self : Events τ) (e : EventId) : Culls e self (self.culled e) := by
  rw [culled]
  split
  case isTrue =>
    obtain ⟨kept, after, cull, result⟩ := self.cullMembers_spec e
    have grows : Grows after (after.modify e fun body => { body with members := kept }) :=
      Grows.modify rfl rfl rfl rfl id
    rw [result]
    refine ⟨cull.toGrows.trans grows, ?_, ?_, ?_, ?_⟩
    · intro x
      by_cases own : x = e
      · rw [own, body_modify_self]
        exact cull.same e
      · rw [body_modify_of_ne _ own]
        exact cull.same x
    · intro x
      by_cases own : x = e
      · rw [own, body_modify_self]
        exact cull.count e
      · rw [body_modify_of_ne _ own]
        exact cull.count x
    · intro x different
      rw [body_modify_of_ne _ different]
      exact cull.members x
    · intro x t
      have stays := cull.listeners x (.coroutine t)
      rw [if_neg fun both => absurd both.2 (coroutine_ne_quorum t e), Nat.sub_zero] at stays
      by_cases own : x = e
      · subst own
        rw [body_modify_self]
        exact stays
      · rw [body_modify_of_ne _ own]
        exact stays
  case isFalse =>
    exact ⟨Grows.refl self, fun _ => rfl, fun _ => rfl, fun _ _ => rfl, fun _ _ => rfl⟩

theorem members_culled (plain : (self.body e).isQuorum = false → (self.body e).members = []) :
    ((self.culled e).body e).members.Perm
      ((self.body e).members.filter fun m => (self.body m).triggered) := by
  rw [culled]
  split
  case isTrue =>
    obtain ⟨kept, after, cull, result⟩ := self.cullMembers_spec e
    rw [result, body_modify_self]
    exact cull.kept
  case isFalse isPlain =>
    rw [plain (Bool.eq_false_iff.mpr isPlain)]
    exact List.Perm.refl _

theorem listeners_culled (plain : (self.body e).isQuorum = false → (self.body e).members = [])
    (x q : EventId) :
    ((self.culled e).body x).listeners.count (.quorum q) =
      (self.body x).listeners.count (.quorum q) -
        if (self.body x).triggered = false ∧ q = e then (self.body e).members.count x else 0 := by
  rw [culled]
  split
  case isTrue =>
    obtain ⟨kept, after, cull, result⟩ := self.cullMembers_spec e
    have listeners := cull.listeners x (.quorum q)
    simp only [Listener.quorum.injEq] at listeners
    rw [← listeners, result]
    by_cases own : x = e
    · rw [own, body_modify_self]
    · rw [body_modify_of_ne _ own]
  case isFalse isPlain =>
    rw [plain (Bool.eq_false_iff.mpr isPlain)]
    simp

end Culling

/-! ## The listeners of an event -/

section Scanning

theorem quorum_notMem_kept (drv : Bool) (listeners : List (Listener τ)) (coh : Option τ)
    (q : EventId) : .quorum q ∉ (scanListeners drv listeners coh).kept := by
  induction listeners generalizing coh with
  | nil => exact List.not_mem_nil
  | cons listener rest ih =>
      cases listener with
      | quorum other => exact ih coh
      | coroutine t =>
          cases drv with
          | false =>
              exact List.not_mem_cons_of_ne_of_not_mem (coroutine_ne_quorum t q).symm (ih coh)
          | true =>
              cases coh with
              | none => exact ih (some t)
              | some claimed =>
                  exact List.not_mem_cons_of_ne_of_not_mem (coroutine_ne_quorum t q).symm
                    (ih (some claimed))

variable [DecidableEq τ]

@[simp]
theorem count_quorums_scanListeners (drv : Bool) (listeners : List (Listener τ)) (coh : Option τ)
    (q : EventId) :
    (scanListeners drv listeners coh).quorums.count q = listeners.count (.quorum q) := by
  induction listeners generalizing coh with
  | nil => rfl
  | cons listener rest ih =>
      cases listener with
      | quorum other =>
          simp only [scanListeners]
          by_cases same : other = q
          · subst same
            rw [List.count_cons_self, List.count_cons_self, ih]
          · rw [List.count_cons_of_ne same, List.count_cons_of_ne (by simpa using same), ih]
      | coroutine t =>
          rw [List.count_cons_of_ne (coroutine_ne_quorum t q)]
          cases drv with
          | false => exact ih coh
          | true =>
              cases coh with
              | none => exact ih (some t)
              | some claimed => exact ih (some claimed)

end Scanning

/-! ## The invariant -/

/-- How many members a quorum has heard of is below its threshold, unless it has
triggered. -/
def Below (self : Events τ) (q : EventId) : Prop :=
  (self.body q).isQuorum → (self.body q).triggered = false →
    (self.body q).count < (self.body q).quorum

section Invariant

variable [DecidableEq τ]

/-- Quorums and members agree about each other, where `owed` are the members that
quorums have yet to be told of, and whatever has triggered had to. -/
structure Linked (fired : EventId → Prop) (events : Events τ)
    (owed : List (EventId × EventId)) : Prop where
  fresh : ∀ e, events.next ≤ e → (events.body e).triggered = false ∧
    (events.body e).isQuorum = false ∧ (events.body e).listeners = [] ∧ (events.body e).members = []
  plain : ∀ q, (events.body q).isQuorum = false → (events.body q).members = []
  linked : ∀ q e, (events.body q).members.count e =
    if (events.body e).triggered then owed.count (q, e)
    else (events.body e).listeners.count (.quorum q)
  unlinked : ∀ e q, (events.body e).triggered → .quorum q ∉ (events.body e).listeners
  owing : ∀ q e, (q, e) ∈ owed → (events.body e).triggered
  counted : ∀ q, (events.body q).isQuorum → (events.body q).triggered = false →
    ∃ reported : List EventHandle,
      ((events.body q).given).Perm (reported ++ (events.body q).members.map some) ∧
        reported.length = (events.body q).count ∧ ∀ handle ∈ reported, events.settled handle
  due : ∀ e, (events.body e).triggered → Threshold.Holds fired events.gate e

variable {fired : EventId → Prop} {owed : List (EventId × EventId)}

/-- A quorum that has heard of enough members has to trigger. -/
theorem Linked.holds_of_count (linked : Linked fired self owed) (isQuorum : (self.body q).isQuorum)
    (untriggered : (self.body q).triggered = false)
    (enough : (self.body q).quorum ≤ (self.body q).count) :
    Threshold.Holds fired self.gate q := by
  obtain ⟨reported, perm, length, settled⟩ := linked.counted q isQuorum untriggered
  have has : self.gate q = some ((self.body q).quorum, (self.body q).given) := if_pos isQuorum
  have among : List.Subperm reported (self.body q).given :=
    (List.sublist_append_left reported _).subperm.trans perm.symm.subperm
  apply Threshold.Holds.gate has reported among (length ▸ enough)
  intro j member
  exact linked.due j (settled (some j) member)

/-- The members of a quorum that is still to be told are its members indeed. -/
theorem Linked.mem_of_owed (linked : Linked fired self ((q, e) :: owed)) :
    e ∈ (self.body q).members ∧ (self.body e).triggered := by
  have triggered := linked.owing q e List.mem_cons_self
  have count := linked.linked q e
  rw [if_pos triggered, List.count_cons_self] at count
  exact ⟨List.count_pos_iff.mp (by omega), triggered⟩

/-- The queue plays no part in the invariant. -/
theorem Linked.withAsap (linked : Linked fired self owed) (asap : List EventId) :
    Linked fired { self with asap := asap } owed :=
  { linked with }

end Invariant

end Events

end DoomDraft.Cotamer
