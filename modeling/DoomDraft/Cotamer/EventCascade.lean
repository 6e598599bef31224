import DoomDraft.Cotamer.EventLinks

/-!
# Triggering through quorums

One call of `trigger_unlock` tells every quorum above the event, and every quorum above
those that trigger in turn; when it returns, no quorum is owed anything.
-/

namespace DoomDraft.Cotamer.Events

universe u

variable {τ : Type u} {self : Events τ} {e q : EventId}

/-! ## What a cascade leaves alone -/

theorem grows_noteMember : Grows self (self.noteMember q e) := by
  rw [noteMember]
  split
  · exact Grows.modify rfl rfl rfl rfl id
  · exact Grows.refl self

/-- Telling a quorum of a member changes neither flags nor listeners. -/
theorem noteMember_same (self : Events τ) (q e x : EventId) :
    ((self.noteMember q e).body x).triggered = (self.body x).triggered ∧
      ((self.noteMember q e).body x).listeners = (self.body x).listeners := by
  rw [noteMember]
  split
  · by_cases own : x = q
    · subst own
      simp
    · simp [own]
  · exact ⟨rfl, rfl⟩

theorem grows_triggerMember {unlock : Events τ → EventId → Option τ → Events τ × Option τ}
    (grows : ∀ self e coh, Grows self (unlock self e coh).1) :
    Grows self (triggerMember unlock self q e coh).1 := by
  rw [triggerMember]
  split
  · exact grows_noteMember.trans (grows _ _ _)
  · exact grows_noteMember

theorem grows_foldl {unlock : Events τ → EventId → Option τ → Events τ × Option τ}
    (grows : ∀ self e coh, Grows self (unlock self e coh).1) (quorums : List EventId)
    (before : Events τ × Option τ) :
    Grows before.1 (quorums.foldl
      (fun before q => triggerMember unlock before.1 q e before.2) before).1 := by
  induction quorums generalizing before with
  | nil => exact Grows.refl _
  | cons q rest ih => exact (grows_triggerMember grows).trans (ih _)

/-- How many events have not triggered. -/
def pending (self : Events τ) : Nat :=
  (List.range self.next).countP fun e => (self.body e).triggered = false

theorem pending_le_of_grows {after : Events τ} (grows : Grows self after) :
    after.pending ≤ self.pending := by
  rw [pending, pending, grows.next]
  apply List.countP_mono_left
  intro x _ untriggered
  simp only [decide_eq_true_eq] at untriggered ⊢
  by_contra triggered
  rw [grows.triggered x (by simpa using triggered)] at untriggered
  contradiction

theorem pending_le_next (self : Events τ) : self.pending ≤ self.next :=
  Nat.le_trans List.countP_le_length (Nat.le_of_eq List.length_range)

section Cascade

variable [DecidableEq τ] {fired : EventId → Prop} {owed : List (EventId × EventId)}
variable {drv : Bool} {coh : Option τ}

theorem markTriggered_eq (drv : Bool) (self : Events τ) (e : EventId) (coh : Option τ) :
    self.markTriggered drv e coh =
      ((self.culled e).modify e fun body =>
          { body with
            listeners := (scanListeners drv ((self.culled e).body e).listeners coh).kept
            triggered := true },
        scanListeners drv ((self.culled e).body e).listeners coh) :=
  rfl

/-- The event has triggered and nothing else has. -/
theorem triggered_markTriggered (x : EventId) :
    ((self.markTriggered drv e coh).1.body x).triggered =
      (decide (x = e) || (self.body x).triggered) := by
  rw [markTriggered_eq]
  by_cases own : x = e
  · subst own
    simp
  · simp [own, (culls_culled self e).same]

theorem grows_markTriggered (drv : Bool) (self : Events τ) (e : EventId) (coh : Option τ) :
    Grows self (self.markTriggered drv e coh).1 := by
  refine (culls_culled self e).toGrows.trans ?_
  rw [markTriggered_eq]
  dsimp only
  exact Grows.modify rfl rfl rfl rfl fun _ => rfl

theorem grows_triggerUnlock (drv : Bool) (n : Nat) (self : Events τ) (e : EventId)
    (coh : Option τ) : Grows self (triggerUnlock drv n self e coh).1 := by
  induction n generalizing self e coh with
  | zero => exact Grows.refl self
  | succ n ih =>
      have marked := grows_markTriggered drv self e coh
      have told := grows_foldl ih (self.markTriggered drv e coh).2.quorums
        ((self.markTriggered drv e coh).1, (self.markTriggered drv e coh).2.coh) (e := e)
      rw [triggerUnlock]
      dsimp only
      split
      · refine (marked.trans told).trans { Grows.refl _ with
          asap := List.subset_append_left _ _
          posted := ?_ }
        intro x isPosted
        rcases List.mem_append.mp isPosted with before | now
        · exact Or.inl before
        · obtain rfl := List.mem_singleton.mp now
          exact Or.inr (told.triggered x (by simp [triggered_markTriggered]))
      · exact marked.trans told

/-! ## One step of the cascade -/

theorem count_members_markTriggered
    (plain : (self.body e).isQuorum = false → (self.body e).members = []) (q x : EventId) :
    ((self.markTriggered drv e coh).1.body q).members.count x =
      if q = e ∧ (self.body x).triggered = false then 0 else (self.body q).members.count x := by
  rw [markTriggered_eq]
  by_cases own : q = e
  · subst own
    rw [body_modify_self, (members_culled plain).count_eq]
    cases triggered : (self.body x).triggered with
    | false =>
        rw [if_pos ⟨rfl, rfl⟩, List.count_eq_zero]
        simp [triggered]
    | true =>
        rw [if_neg (by simp)]
        exact List.count_filter (p := fun m => (self.body m).triggered) triggered
  · rw [body_modify_of_ne _ own, (culls_culled self e).members q own, if_neg (own ·.1)]

theorem count_owed_markTriggered (quorums : List EventId) (q x : EventId) :
    (quorums.map (·, e) ++ owed).count (q, x) =
      (if x = e then quorums.count q else 0) + owed.count (q, x) := by
  rw [List.count_append]
  congr 1
  split
  case isTrue same =>
    subst same
    have injective : Function.Injective fun q : EventId => (q, x) :=
      fun _ _ same => (Prod.mk.inj same).1
    exact List.count_map_of_injective quorums _ injective q
  case isFalse different =>
    rw [List.count_eq_zero]
    intro member
    obtain ⟨_, _, same⟩ := List.mem_map.mp member
    exact different (Prod.mk.inj same).2.symm

/-- When an event is marked its quorums are owed the news. -/
theorem Linked.markTriggered (linked : Linked fired self owed) (drv : Bool) (coh : Option τ)
    (untriggered : (self.body e).triggered = false) (inRange : e < self.next)
    (holds : Threshold.Holds fired self.gate e) :
    Linked fired (self.markTriggered drv e coh).1
      ((self.markTriggered drv e coh).2.quorums.map (·, e) ++ owed) := by
  have culls := culls_culled self e
  have plain := linked.plain e
  have kept := members_culled plain
  have listeners := listeners_culled plain
  have notOwed : ∀ q, owed.count (q, e) = 0 := by
    intro q
    rw [List.count_eq_zero]
    intro member
    simp [linked.owing q e member] at untriggered
  have grows := grows_markTriggered drv self e coh
  have gate := grows.gate
  constructor
  case fresh =>
    intro x beyond
    rw [grows.next] at beyond
    have different : x ≠ e := Nat.ne_of_gt (Nat.lt_of_lt_of_le inRange beyond)
    obtain ⟨isUntriggered, isPlain, noListeners, noMembers⟩ := linked.fresh x beyond
    rw [grows.isQuorum, triggered_markTriggered, isUntriggered]
    rw [markTriggered_eq]
    simp only [body_modify_of_ne _ different, culls.members x different]
    refine ⟨by simp [different], isPlain, ?_, noMembers⟩
    rw [List.eq_nil_iff_forall_not_mem]
    intro listener member
    cases listener with
    | coroutine t =>
        have count := culls.coroutines x t
        rw [noListeners, List.count_nil, List.count_eq_zero] at count
        exact count member
    | quorum q =>
        have count := listeners x q
        rw [noListeners, List.count_nil, Nat.zero_sub, List.count_eq_zero] at count
        exact count member
  case plain =>
    intro x isPlain
    rw [grows.isQuorum] at isPlain
    rw [markTriggered_eq]
    by_cases own : x = e
    · subst own
      rw [body_modify_self]
      rw [plain isPlain] at kept
      exact kept.eq_nil
    · rw [body_modify_of_ne _ own, culls.members x own]
      exact linked.plain x isPlain
  case linked =>
    intro q x
    have before := linked.linked q x
    rw [count_members_markTriggered plain, triggered_markTriggered, count_owed_markTriggered]
    by_cases own : x = e
    · -- the members of `e` itself, and the quorums that it is a member of
      subst own
      rw [untriggered, if_neg Bool.false_ne_true] at before
      rw [markTriggered_eq, count_quorums_scanListeners, listeners, untriggered, notOwed]
      simp only [decide_true, Bool.true_or, if_true, and_true, true_and]
      split <;> rename_i isSelf
      · obtain rfl := isSelf
        omega
      · omega
    · rw [markTriggered_eq]
      simp only [own, decide_false, Bool.false_or, if_false, body_modify_of_ne _ own, listeners]
      cases triggered : (self.body x).triggered with
      | true => simpa [triggered] using before
      | false =>
          rw [triggered, if_neg Bool.false_ne_true] at before
          simp only [and_true, true_and, Bool.false_eq_true, if_false]
          split <;> rename_i isSelf
          · obtain rfl := isSelf
            omega
          · omega
  case unlinked =>
    intro x q triggered
    rw [triggered_markTriggered] at triggered
    rw [markTriggered_eq]
    by_cases own : x = e
    · subst own
      rw [body_modify_self]
      exact quorum_notMem_kept _ _ _ _
    · rw [body_modify_of_ne _ own]
      have before : (self.body x).triggered := by simpa [own] using triggered
      have none := linked.unlinked x q before
      have count := listeners x q
      rw [List.count_eq_zero.mpr none, Nat.zero_sub] at count
      exact List.count_eq_zero.mp count
  case owing =>
    intro q x member
    rw [triggered_markTriggered]
    rcases List.mem_append.mp member with here | there
    · obtain ⟨_, _, same⟩ := List.mem_map.mp here
      simp [(Prod.mk.inj same).2]
    · simp [linked.owing q x there]
  case counted =>
    intro x isQuorum isUntriggered
    rw [triggered_markTriggered] at isUntriggered
    obtain ⟨different, before⟩ : x ≠ e ∧ (self.body x).triggered = false := by
      simpa using isUntriggered
    rw [grows.isQuorum] at isQuorum
    obtain ⟨reported, perm, length, settled⟩ := linked.counted x isQuorum before
    refine ⟨reported, ?_, ?_, fun handle member => grows.settled (settled handle member)⟩
    · rw [grows.given, markTriggered_eq, body_modify_of_ne _ different,
        culls.members x different]
      exact perm
    · rw [markTriggered_eq, body_modify_of_ne _ different, culls.count]
      exact length
  case due =>
    intro x triggered
    rw [gate]
    rw [triggered_markTriggered] at triggered
    by_cases own : x = e
    · rw [own]
      exact holds
    · exact linked.due x (by simpa [own] using triggered)

/-- Telling a quorum of a member settles the debt. -/
theorem Linked.noteMember (linked : Linked fired self ((q, e) :: owed)) :
    Linked fired (self.noteMember q e) owed := by
  obtain ⟨member, triggered⟩ := linked.mem_of_owed
  have grows : Grows self (self.noteMember q e) := grows_noteMember
  have same := self.noteMember_same q e
  have members : ∀ x, ((self.noteMember q e).body x).members.Perm
      (if x = q then (self.body q).members.erase e else (self.body x).members) := by
    intro x
    rw [Events.noteMember, if_pos member]
    by_cases own : x = q
    · subst own
      rw [body_modify_self, if_pos rfl]
      exact swapRemove_perm e _
    · rw [body_modify_of_ne _ own, if_neg own]
  constructor
  case fresh =>
    intro x beyond
    rw [grows.next] at beyond
    obtain ⟨isUntriggered, isPlain, noListeners, noMembers⟩ := linked.fresh x beyond
    rw [(same x).1, (same x).2, grows.isQuorum]
    refine ⟨isUntriggered, isPlain, noListeners, ?_⟩
    have different : x ≠ q := by
      rintro rfl
      simp [noMembers] at member
    have perm := members x
    rw [if_neg different, noMembers] at perm
    exact perm.eq_nil
  case plain =>
    intro x isPlain
    rw [grows.isQuorum] at isPlain
    have noMembers := linked.plain x isPlain
    have different : x ≠ q := by
      rintro rfl
      simp [noMembers] at member
    have perm := members x
    rw [if_neg different, noMembers] at perm
    exact perm.eq_nil
  case linked =>
    intro x y
    have before := linked.linked x y
    rw [(members x).count_eq, (same y).1, (same y).2]
    by_cases own : x = q
    · subst own
      rw [if_pos rfl, List.count_erase, before]
      by_cases isMember : y = e
      · subst isMember
        simp [triggered]
      · have different : (x, e) ≠ (x, y) := fun both => isMember (Prod.mk.inj both).2.symm
        simp [Ne.symm isMember, List.count_cons_of_ne different]
    · have different : (q, e) ≠ (x, y) := fun both => own (Prod.mk.inj both).1.symm
      rw [if_neg own, before, List.count_cons_of_ne different]
  case unlinked =>
    intro x y isTriggered
    rw [(same x).1] at isTriggered
    rw [(same x).2]
    exact linked.unlinked x y isTriggered
  case owing =>
    intro x y isOwed
    rw [(same y).1]
    exact linked.owing x y (List.mem_cons_of_mem _ isOwed)
  case counted =>
    intro x isQuorum isUntriggered
    rw [grows.isQuorum] at isQuorum
    rw [(same x).1] at isUntriggered
    obtain ⟨reported, perm, length, settled⟩ := linked.counted x isQuorum isUntriggered
    rw [grows.given]
    by_cases own : x = q
    · subst own
      refine ⟨some e :: reported, ?_, ?_, ?_⟩
      · refine perm.trans ?_
        have split : (self.body x).members.Perm (e :: ((self.noteMember x e).body x).members) := by
          refine (List.perm_cons_erase member).trans (List.Perm.cons e ?_)
          exact ((members x).trans (by rw [if_pos rfl])).symm
        exact ((split.map some).append_left reported).trans List.perm_middle
      · simp [Events.noteMember, member, length]
      · rw [List.forall_mem_cons]
        exact ⟨grows.triggered e triggered,
          fun handle isReported => grows.settled (settled handle isReported)⟩
    · refine ⟨reported, ?_, ?_, fun handle isReported => grows.settled (settled handle isReported)⟩
      · have perm' := members x
        rw [if_neg own] at perm'
        exact perm.trans ((perm'.symm.map some).append_left reported)
      · simp [Events.noteMember, member, own, length]
  case due =>
    intro x isTriggered
    rw [(same x).1] at isTriggered
    rw [grows.gate]
    exact linked.due x isTriggered

/-! ## The whole cascade -/

theorem pending_markTriggered (untriggered : (self.body e).triggered = false)
    (inRange : e < self.next) : (self.markTriggered drv e coh).1.pending < self.pending := by
  have perm := List.perm_cons_erase (List.mem_range.mpr inRange)
  rw [pending, pending, (grows_markTriggered drv self e coh).next, perm.countP_eq, perm.countP_eq,
    List.countP_cons_of_neg (by simp [triggered_markTriggered]),
    List.countP_cons_of_pos (by simpa using untriggered), Nat.lt_succ_iff]
  apply List.countP_mono_left
  intro x _ isUntriggered
  simp only [decide_eq_true_eq, triggered_markTriggered, Bool.or_eq_false_iff] at isUntriggered ⊢
  exact isUntriggered.2

/-- What `unlock` does for the recursion: it triggers the event and settles all that
follows from that. -/
def Settles (fired : EventId → Prop) (bound : Nat)
    (unlock : Events τ → EventId → Option τ → Events τ × Option τ) : Prop :=
  ∀ (self : Events τ) (e : EventId) (coh : Option τ) (owed : List (EventId × EventId)),
    Linked fired self owed → (∀ q, q ≠ e → self.Below q) → (self.body e).triggered = false →
      e < self.next → Threshold.Holds fired self.gate e → self.pending ≤ bound →
        Linked fired (unlock self e coh).1 owed ∧ (∀ q, (unlock self e coh).1.Below q) ∧
          ((unlock self e coh).1.body e).triggered

variable {unlock : Events τ → EventId → Option τ → Events τ × Option τ} {bound : Nat}

theorem Linked.triggerMember (settles : Settles fired bound unlock) (coh : Option τ)
    (linked : Linked fired self ((q, e) :: owed)) (below : ∀ q, self.Below q)
    (enough : self.pending ≤ bound) :
    Linked fired (triggerMember unlock self q e coh).1 owed ∧
      ∀ x, (triggerMember unlock self q e coh).1.Below x := by
  have told := linked.noteMember
  have member := linked.mem_of_owed.1
  have grows : Grows self (self.noteMember q e) := grows_noteMember
  have isQuorum : ((self.noteMember q e).body q).isQuorum := by
    by_contra isPlain
    rw [grows.isQuorum, Bool.not_eq_true] at isPlain
    simp [linked.plain q isPlain] at member
  have others : ∀ x, x ≠ q → (self.noteMember q e).Below x := by
    intro x different
    have same : (self.noteMember q e).body x = self.body x := by
      rw [Events.noteMember, if_pos member, body_modify_of_ne _ different]
    rw [Below, same]
    exact below x
  rw [Events.triggerMember]
  split
  case isTrue reached =>
    have inRange : q < (self.noteMember q e).next := by
      by_contra beyond
      simp [(told.fresh q (Nat.le_of_not_lt beyond)).2.1] at isQuorum
    have holds := told.holds_of_count isQuorum reached.1 reached.2
    have within := Nat.le_trans (pending_le_of_grows grows) enough
    obtain ⟨linked', below', _⟩ := settles _ q coh owed told others reached.1 inRange holds within
    exact ⟨linked', below'⟩
  case isFalse short =>
    refine ⟨told, fun x => ?_⟩
    by_cases own : x = q
    · subst own
      intro _ untriggered
      by_contra reached
      exact short ⟨untriggered, Nat.le_of_not_lt reached⟩
    · exact others x own

/-- All quorums among the listeners of an event are told of it. -/
theorem Linked.tellQuorums (settles : Settles fired bound unlock)
    (grows : ∀ self e coh, Grows self (unlock self e coh).1) (quorums : List EventId)
    (before : Events τ × Option τ) (linked : Linked fired before.1 (quorums.map (·, e) ++ owed))
    (below : ∀ q, before.1.Below q) (enough : before.1.pending ≤ bound) :
    let after := quorums.foldl
      (fun before q => Events.triggerMember unlock before.1 q e before.2) before
    Linked fired after.1 owed ∧ ∀ q, after.1.Below q := by
  induction quorums generalizing before with
  | nil => exact ⟨linked, below⟩
  | cons q rest ih =>
      obtain ⟨linked', below'⟩ :=
        Linked.triggerMember settles before.2 linked below enough
      apply ih _ linked' below'
      exact Nat.le_trans (pending_le_of_grows (grows_triggerMember grows)) enough

/-- `trigger_unlock` triggers the event and leaves no quorum behind. -/
theorem settles_triggerUnlock (drv : Bool) (n : Nat) :
    Settles fired n (triggerUnlock drv n (τ := τ)) := by
  induction n with
  | zero =>
      intro self e coh owed _ _ untriggered inRange _ enough
      have none := List.countP_eq_zero.mp (Nat.le_zero.mp enough) e (List.mem_range.mpr inRange)
      simp [untriggered] at none
  | succ n ih =>
      intro self e coh owed linked below untriggered inRange holds enough
      have marked := linked.markTriggered drv coh untriggered inRange holds
      have grows := grows_markTriggered drv self e coh
      have within : (self.markTriggered drv e coh).1.pending ≤ n :=
        Nat.le_of_lt_succ (Nat.lt_of_lt_of_le (pending_markTriggered untriggered inRange) enough)
      have belowAll : ∀ q, (self.markTriggered drv e coh).1.Below q := by
        intro q isQuorum isUntriggered
        rw [triggered_markTriggered] at isUntriggered
        obtain ⟨different, before⟩ : q ≠ e ∧ (self.body q).triggered = false := by
          simpa using isUntriggered
        rw [grows.isQuorum] at isQuorum
        have short := below q different isQuorum before
        rwa [grows.quorum, markTriggered_eq, body_modify_of_ne _ different,
          (culls_culled self e).count]
      have isTriggered : ((self.markTriggered drv e coh).1.body e).triggered := by
        simp [triggered_markTriggered]
      have told := Linked.tellQuorums ih (grows_triggerUnlock drv n) _
        ((self.markTriggered drv e coh).1, (self.markTriggered drv e coh).2.coh)
        marked belowAll within
      have later := grows_foldl (e := e) (grows_triggerUnlock drv n)
        (self.markTriggered drv e coh).2.quorums
        ((self.markTriggered drv e coh).1, (self.markTriggered drv e coh).2.coh)
      rw [triggerUnlock]
      dsimp only
      split
      · exact ⟨told.1.withAsap _, told.2, later.triggered e isTriggered⟩
      · exact ⟨told.1, told.2, later.triggered e isTriggered⟩

end Cascade

end DoomDraft.Cotamer.Events
