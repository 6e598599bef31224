import DoomDraft.Cotamer.EventCascade

/-!
# The coroutines behind a triggered event

Where an event is triggered by the program, every event that triggers with it and has
coroutines among its listeners is queued.  Where the driver triggers it, one coroutine is
taken along and nothing is queued.
-/

namespace DoomDraft.Cotamer.Events

universe u

variable {τ : Type u} {self first second third : Events τ} {e q : EventId}
variable {coh coh' coh'' : Option τ}

/-! ## Triggered by the program -/

/-- A coroutine that waits for a triggered event is behind one in the queue, or was left
there before. -/
def Wakes (before after : Events τ) : Prop :=
  ∀ x t, (after.body x).triggered → .coroutine t ∈ (after.body x).listeners →
    x ∈ after.asap ∨ (before.body x).triggered ∧ .coroutine t ∈ (before.body x).listeners

theorem Wakes.refl (self : Events τ) : Wakes self self :=
  fun _ _ triggered waits => Or.inr ⟨triggered, waits⟩

theorem Wakes.trans (early : Wakes first second) (late : Wakes second third)
    (asap : second.asap ⊆ third.asap) : Wakes first third := by
  intro x t triggered waits
  rcases late x t triggered waits with queued | ⟨triggered', waits'⟩
  · exact Or.inl queued
  · exact (early x t triggered' waits').imp_left fun queued => asap queued

theorem posts_of_mem_kept {listeners : List (Listener τ)} {t : τ}
    (kept : .coroutine t ∈ (scanListeners false listeners coh).kept) :
    (scanListeners false listeners coh).posts := by
  induction listeners with
  | nil => cases kept
  | cons listener rest ih =>
      cases listener with
      | quorum q => exact ih kept
      | coroutine other => rfl

theorem wakes_noteMember : Wakes self (self.noteMember q e) := by
  intro x t triggered waits
  rw [(self.noteMember_same q e x).1] at triggered
  rw [(self.noteMember_same q e x).2] at waits
  exact Or.inr ⟨triggered, waits⟩

/-- The rule for the loop over quorums. -/
theorem wakes_foldl {unlock : Events τ → EventId → Option τ → Events τ × Option τ}
    (grows : ∀ self e coh, Grows self (unlock self e coh).1)
    (wakes : ∀ self e coh, Wakes self (unlock self e coh).1) (quorums : List EventId)
    (before : Events τ × Option τ) :
    Wakes before.1 (quorums.foldl
      (fun before q => triggerMember unlock before.1 q e before.2) before).1 := by
  induction quorums generalizing before with
  | nil => exact Wakes.refl _
  | cons q rest ih =>
      have told : Wakes before.1 (triggerMember unlock before.1 q e before.2).1 := by
        rw [triggerMember]
        split
        · exact wakes_noteMember.trans (wakes _ _ _) (grows _ _ _).asap
        · exact wakes_noteMember
      exact told.trans (ih _) (grows_foldl grows rest _).asap

section Decidable

variable [DecidableEq τ]

theorem mem_listeners_markTriggered {drv : Bool} {x : EventId} {t : τ} (different : x ≠ e) :
    .coroutine t ∈ ((self.markTriggered drv e coh).1.body x).listeners ↔
      .coroutine t ∈ (self.body x).listeners := by
  rw [markTriggered_eq, body_modify_of_ne _ different, ← List.count_pos_iff,
    (culls_culled self e).coroutines, List.count_pos_iff]

theorem wakes_triggerUnlock (n : Nat) (self : Events τ) (e : EventId) (coh : Option τ) :
    Wakes self (triggerUnlock false n self e coh).1 := by
  induction n generalizing self e coh with
  | zero => exact Wakes.refl self
  | succ n ih =>
      have told := wakes_foldl (grows_triggerUnlock false n) ih
        (self.markTriggered false e coh).2.quorums
        ((self.markTriggered false e coh).1, (self.markTriggered false e coh).2.coh) (e := e)
      rw [triggerUnlock]
      dsimp only
      by_cases posts : (self.markTriggered false e coh).2.posts
      · rw [if_pos posts]
        intro x t triggered waits
        rcases told x t triggered waits with queued | ⟨triggered', waits'⟩
        · exact Or.inl (List.mem_append_left _ queued)
        by_cases own : x = e
        · exact Or.inl (List.mem_append_right _ (List.mem_singleton.mpr own))
        · rw [mem_listeners_markTriggered own] at waits'
          rw [triggered_markTriggered] at triggered'
          exact Or.inr ⟨by simpa [own] using triggered', waits'⟩
      · rw [if_neg posts]
        intro x t triggered waits
        rcases told x t triggered waits with queued | ⟨triggered', waits'⟩
        · exact Or.inl queued
        by_cases own : x = e
        · -- a coroutine that stays makes the event one to post
          rw [own, markTriggered_eq, body_modify_self] at waits'
          exact absurd (posts_of_mem_kept waits') posts
        · rw [mem_listeners_markTriggered own] at waits'
          rw [triggered_markTriggered] at triggered'
          exact Or.inr ⟨by simpa [own] using triggered', waits'⟩

/-! ## Triggered by the driver -/

/-- What becomes of the coroutine that the driver takes along: if it has none yet, it
gets one of those that wait for the events that trigger, if there are any. -/
structure Claims (before : Events τ) (coh : Option τ) (after : Events τ) (coh' : Option τ) :
    Prop extends Grows before after where
  /-- A coroutine that has been taken before stays, and so do all others. -/
  full : ∀ t, coh = some t → coh' = some t ∧ ∀ x u,
    (after.body x).listeners.count (.coroutine u) = (before.body x).listeners.count (.coroutine u)
  /-- Nobody waits for what has triggered. -/
  empty : coh = none → coh' = none → (∀ x u, (after.body x).listeners.count (.coroutine u) =
      (before.body x).listeners.count (.coroutine u)) ∧
    ∀ x u, (before.body x).triggered = false → (after.body x).triggered →
      .coroutine u ∉ (before.body x).listeners
  /-- One coroutine that waits for one of the events is taken. -/
  takes : ∀ t, coh = none → coh' = some t → ∃ x, (before.body x).triggered = false ∧
    (after.body x).triggered ∧ .coroutine t ∈ (before.body x).listeners ∧
      ∀ y u, (after.body y).listeners.count (.coroutine u) +
        (if y = x ∧ u = t then 1 else 0) = (before.body y).listeners.count (.coroutine u)

theorem Claims.trans (early : Claims first coh second coh')
    (late : Claims second coh' third coh'') : Claims first coh third coh'' := by
  have back : ∀ x, (second.body x).triggered = false → (first.body x).triggered = false := by
    intro x untriggered
    by_contra triggered
    simp [early.triggered x (by simpa using triggered)] at untriggered
  refine ⟨early.toGrows.trans late.toGrows, ?_, ?_, ?_⟩
  · intro t taken
    obtain ⟨taken', same⟩ := early.full t taken
    obtain ⟨taken'', same'⟩ := late.full t taken'
    exact ⟨taken'', fun x u => (same' x u).trans (same x u)⟩
  · intro free ended
    cases middle : coh' with
    | some t =>
        have stays := (late.full t middle).1
        rw [ended] at stays
        cases stays
    | none =>
        obtain ⟨same, nobody⟩ := early.empty free middle
        obtain ⟨same', nobody'⟩ := late.empty middle ended
        refine ⟨fun x u => (same' x u).trans (same x u), fun x u untriggered triggered => ?_⟩
        cases between : (second.body x).triggered with
        | true => exact nobody x u untriggered between
        | false =>
            have absent := nobody' x u between triggered
            rwa [← List.count_eq_zero, same, List.count_eq_zero] at absent
  · intro t free ended
    cases middle : coh' with
    | some taken =>
        obtain ⟨stays, same⟩ := late.full taken middle
        obtain rfl := Option.some.inj (stays.symm.trans ended)
        obtain ⟨x, untriggered, triggered, waits, counts⟩ := early.takes taken free middle
        refine ⟨x, untriggered, late.triggered x triggered, waits, fun y u => ?_⟩
        rw [same]
        exact counts y u
    | none =>
        obtain ⟨same, nobody⟩ := early.empty free middle
        obtain ⟨x, untriggered, triggered, waits, counts⟩ := late.takes t middle ended
        refine ⟨x, back x untriggered, triggered, ?_, fun y u => ?_⟩
        · rwa [← List.count_pos_iff, same, List.count_pos_iff] at waits
        · rw [← same]
          exact counts y u

/-- Nobody begins to wait. -/
theorem Claims.mem_before (claims : Claims first coh second coh') {x : EventId} {t : τ}
    (waits : .coroutine t ∈ (second.body x).listeners) :
    .coroutine t ∈ (first.body x).listeners := by
  rw [← List.count_pos_iff] at waits ⊢
  cases isTaken : coh with
  | some u =>
      rwa [(claims.full u isTaken).2] at waits
  | none =>
      cases ended : coh' with
      | none => rwa [(claims.empty isTaken ended).1] at waits
      | some u =>
          obtain ⟨y, _, _, _, counts⟩ := claims.takes u isTaken ended
          have count := counts x t
          omega

theorem Claims.of_same (grows : Grows first second)
    (triggered : ∀ x, (second.body x).triggered = (first.body x).triggered)
    (counts : ∀ x u, (second.body x).listeners.count (.coroutine u) =
      (first.body x).listeners.count (.coroutine u)) (coh : Option τ) :
    Claims first coh second coh := by
  refine ⟨grows, fun t taken => ⟨taken, counts⟩, fun _ _ => ⟨counts, ?_⟩, ?_⟩
  · intro x u untriggered isTriggered
    simp [triggered, untriggered] at isTriggered
  · intro t free taken
    rw [free] at taken
    cases taken

theorem claims_noteMember (coh : Option τ) : Claims self coh (self.noteMember q e) coh :=
  Claims.of_same grows_noteMember (fun x => (self.noteMember_same q e x).1)
    (fun x u => by rw [(self.noteMember_same q e x).2]) coh

theorem scanListeners_some (listeners : List (Listener τ)) (t : τ) :
    (scanListeners true listeners (some t)).coh = some t ∧
      ∀ u, (scanListeners true listeners (some t)).kept.count (.coroutine u) =
        listeners.count (.coroutine u) := by
  induction listeners with
  | nil => exact ⟨rfl, fun _ => rfl⟩
  | cons listener rest ih =>
      cases listener with
      | quorum q =>
          refine ⟨ih.1, fun u => ?_⟩
          rw [List.count_cons_of_ne (coroutine_ne_quorum u q).symm]
          exact ih.2 u
      | coroutine other =>
          refine ⟨ih.1, fun u => ?_⟩
          simp only [scanListeners, if_true, List.count_cons, ih.2]

theorem scanListeners_none (listeners : List (Listener τ)) :
    match (scanListeners true listeners none).coh with
    | none => (∀ u, .coroutine u ∉ listeners) ∧
        ∀ u, (scanListeners true listeners none).kept.count (.coroutine u) =
          listeners.count (.coroutine u)
    | some t => .coroutine t ∈ listeners ∧
        ∀ u, (scanListeners true listeners none).kept.count (.coroutine u) +
          (if u = t then 1 else 0) = listeners.count (.coroutine u) := by
  induction listeners with
  | nil => exact ⟨fun _ => List.not_mem_nil, fun _ => rfl⟩
  | cons listener rest ih =>
      cases listener with
      | quorum q =>
          simp only [scanListeners]
          split <;> rename_i coh isCoh <;> rw [isCoh] at ih
          · refine ⟨fun u => ?_, fun u => ?_⟩
            · exact List.not_mem_cons_of_ne_of_not_mem (coroutine_ne_quorum u q) (ih.1 u)
            · rw [List.count_cons_of_ne (coroutine_ne_quorum u q).symm]
              exact ih.2 u
          · refine ⟨List.mem_cons_of_mem _ ih.1, fun u => ?_⟩
            rw [List.count_cons_of_ne (coroutine_ne_quorum u q).symm]
            exact ih.2 u
      | coroutine t =>
          obtain ⟨stays, counts⟩ := scanListeners_some rest t
          simp only [scanListeners, if_true, stays]
          refine ⟨List.mem_cons_self, fun u => ?_⟩
          rw [counts]
          by_cases same : u = t
          · rw [same, List.count_cons_self, if_pos rfl]
          · have different : Listener.coroutine t ≠ Listener.coroutine u :=
              fun eq => same (by cases eq; rfl)
            rw [if_neg same, List.count_cons_of_ne different, Nat.add_zero]

theorem claims_markTriggered (untriggered : (self.body e).triggered = false) (coh : Option τ) :
    Claims self coh (self.markTriggered true e coh).1 (self.markTriggered true e coh).2.coh := by
  have grows := grows_markTriggered true self e coh
  have coroutines := (culls_culled self e).coroutines
  have others : ∀ x u, x ≠ e →
      ((self.markTriggered true e coh).1.body x).listeners.count (.coroutine u) =
        (self.body x).listeners.count (.coroutine u) := by
    intro x u different
    rw [markTriggered_eq, body_modify_of_ne _ different, coroutines]
  have isNew : ∀ x, (self.body x).triggered = false →
      ((self.markTriggered true e coh).1.body x).triggered → x = e := by
    intro x isUntriggered triggered
    by_contra different
    simp [triggered_markTriggered, different, isUntriggered] at triggered
  have isTriggered : ((self.markTriggered true e coh).1.body e).triggered := by
    simp [triggered_markTriggered]
  have own : ∀ u, ((self.markTriggered true e coh).1.body e).listeners.count (.coroutine u) =
      (self.markTriggered true e coh).2.kept.count (.coroutine u) := by
    intro u
    rw [markTriggered_eq, body_modify_self]
  cases coh with
  | some t =>
      obtain ⟨stays, counts⟩ := scanListeners_some ((self.culled e).body e).listeners t
      refine ⟨grows, ?_, fun free => (by cases free), fun _ free => (by cases free)⟩
      rintro _ ⟨⟩
      refine ⟨stays, fun x u => ?_⟩
      by_cases same : x = e
      · rw [same, own, ← coroutines]
        exact counts u
      · exact others x u same
  | none =>
      have scan := scanListeners_none ((self.culled e).body e).listeners
      refine ⟨grows, fun _ taken => (by cases taken), fun _ ended => ?_, fun t _ taken => ?_⟩
      · have ended' : (scanListeners true ((self.culled e).body e).listeners none).coh = none :=
          ended
        rw [ended'] at scan
        refine ⟨fun x u => ?_, fun x u isUntriggered triggered => ?_⟩
        · by_cases same : x = e
          · rw [same, own, ← coroutines]
            exact scan.2 u
          · exact others x u same
        · obtain rfl := isNew x isUntriggered triggered
          rw [← List.count_eq_zero, ← coroutines, List.count_eq_zero]
          exact scan.1 u
      · have taken' : (scanListeners true ((self.culled e).body e).listeners none).coh = some t :=
          taken
        rw [taken'] at scan
        refine ⟨e, untriggered, isTriggered, ?_, fun y u => ?_⟩
        · rw [← List.count_pos_iff, ← coroutines, List.count_pos_iff]
          exact scan.1
        · by_cases same : y = e
          · simp only [same, true_and]
            rw [own, ← coroutines]
            exact scan.2 u
          · rw [others y u same, if_neg (same ·.1), Nat.add_zero]

theorem claims_foldl {unlock : Events τ → EventId → Option τ → Events τ × Option τ}
    (claims : ∀ self e coh, (self.body e).triggered = false →
      Claims self coh (unlock self e coh).1 (unlock self e coh).2)
    (quorums : List EventId) (before : Events τ × Option τ) :
    let after := quorums.foldl
      (fun before q => triggerMember unlock before.1 q e before.2) before
    Claims before.1 before.2 after.1 after.2 := by
  induction quorums generalizing before with
  | nil => exact Claims.of_same (Grows.refl _) (fun _ => rfl) (fun _ _ => rfl) _
  | cons q rest ih =>
      have told : Claims before.1 before.2 (triggerMember unlock before.1 q e before.2).1
          (triggerMember unlock before.1 q e before.2).2 := by
        rw [triggerMember]
        split
        case isTrue reached => exact (claims_noteMember _).trans (claims _ _ _ reached.1)
        case isFalse => exact claims_noteMember _
      exact told.trans (ih _)

/-- `driver_trigger` hands out one coroutine of those behind the events that trigger, if
there is any, and leaves the others where they are. -/
theorem claims_triggerUnlock (n : Nat) (self : Events τ) (e : EventId) (coh : Option τ)
    (untriggered : (self.body e).triggered = false) :
    Claims self coh (triggerUnlock true n self e coh).1 (triggerUnlock true n self e coh).2 := by
  induction n generalizing self e coh with
  | zero => exact Claims.of_same (Grows.refl _) (fun _ => rfl) (fun _ _ => rfl) _
  | succ n ih =>
      have told := (claims_markTriggered untriggered coh).trans
        (claims_foldl ih (self.markTriggered true e coh).2.quorums
          ((self.markTriggered true e coh).1, (self.markTriggered true e coh).2.coh) (e := e))
      have grows := grows_triggerUnlock true (n + 1) self e coh
      rw [triggerUnlock] at grows ⊢
      dsimp only at grows ⊢
      split
      · exact { told with toGrows := by simpa [*] using grows }
      · exact told

theorem claims_trigger_ (untriggered : (self.body e).triggered = false) :
    Claims self none (self.triggerEvent true e).1 (self.triggerEvent true e).2 :=
  claims_triggerUnlock self.next self e none untriggered

end Decidable

end DoomDraft.Cotamer.Events
