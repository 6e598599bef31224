import DoomDraft.Cotamer.DescriptorWatches

/-!
# Descriptors are safe

In a run in which no access overtakes another driver nothing faults.  What a watch that
somebody waits for wants to know is registered with the kernel or waits to be registered, a
descriptor is open exactly as long as its body has not been closed or some driver listens
to it or is about to close it, and a notification triggers only what was installed for the
open file that it is about.
-/

namespace DoomDraft.Cotamer

open FdEventSet

universe u v w

variable {δ : Type w} {β : Type u} {ε : Type v} [Fintype δ]

namespace Io

variable {io next final : Io δ β ε} {registry after : δ → Registry β ε} {steps : Nat}

/-! ## Steps outside calls -/

/-- A new descriptor is wrapped. -/
theorem Safe.wrap [DecidableEq β] (safe : io.Safe steps) {b : β} {fd : BitVec 32}
    (vacant : io.body b = none) (unused : io.os fd.toNat = none) (positive : fd.slt 0 = false) :
    Safe { io.setBody b (some ⟨fd, fd, 1, [], io.files⟩) with
      os := Function.update io.os fd.toNat (some io.files), files := io.files + 1 }
      (steps + 1) := by
  obtain ⟨fault, registry, sound, told, fresh⟩ := safe
  obtain ⟨next, result⟩ : ∃ next : Io δ β ε, next =
      { io.setBody b (some ⟨fd, fd, 1, [], io.files⟩) with
        os := Function.update io.os fd.toNat (some io.files), files := io.files + 1 } := ⟨_, rfl⟩
  rw [← result]
  have bodies : next.body = Function.update io.body b (some ⟨fd, fd, 1, [], io.files⟩) := by
    rw [result]
    rfl
  have calls : next.call = io.call := by
    rw [result]
    rfl
  have drivers : next.driver = io.driver := by
    rw [result]
    rfl
  have unwatched : ∀ d n, ¬Interested registry b d n := by
    intro d n interest
    obtain ⟨body, known⟩ := sound.live d n b interest
    rw [vacant] at known
    cases known
  have idle : ∀ d, io.phase b d = .away := by
    intro d
    by_contra busy
    obtain ⟨body, known⟩ := sound.involved d b busy
    rw [vacant] at known
    cases known
  have phases : ∀ b, next.phase b = io.phase b := by
    intro b
    funext d
    rw [phase, calls, phase]
  have sameFile : ∀ b' body changed, io.body b' = some body → next.body b' = some changed →
      changed.file = body.file := by
    intro b' body changed before later
    rw [bodies, Function.update_of_ne, before] at later
    · rw [Option.some.inj later]
    · rintro rfl
      rw [vacant] at before
      cases before
  have sound' : next.Sound registry := by
    refine sound.step (fun d => ?_) sameFile (fun b' => ?_) ?_ fun d => ?_
    · rw [drivers, show next.isEmpty = io.isEmpty by rw [result]; rfl]
      exact sound.driver d
    · rw [phases, bodies]
      by_cases same : b' = b
      · subst same
        right
        rw [Function.update_self]
        refine ⟨fun changed new => ?_, (by simp)⟩
        obtain rfl := Option.some.inj new
        exact .wrap unwatched idle positive io.files
      · exact Or.inl ⟨Function.update_of_ne same _ _, rfl, rfl⟩
    · have none : ∀ n f, ¬io.Holds (.inl b) n f := by
        rintro n f ⟨body, known, -⟩
        rw [vacant] at known
        cases known
      refine sound.owned.add unused none (by rw [result]) (by rw [result]) ?_
      · intro who n f
        cases who with
        | inl b' =>
            simp only [Holds, bodies]
            by_cases same : b' = b
            · subst same
              simp only [Function.update_self, Option.some.injEq, exists_eq_left', positive,
                true_and, vacant, reduceCtorEq, false_and, exists_false, false_or]
              exact and_congr eq_comm eq_comm
            · simp [same]
        | inr d => simp [Holds, calls]
    · rw [calls]
      exact sound.alone d
  refine ⟨by rw [result]; exact fault, registry, sound', ?_, fun small => ?_⟩
  · refine told.step (fun d n b' body watches known closed => Or.inr ⟨watches, body, ?_, closed⟩)
      fun d n b' _ pending => pending.frame (by rw [drivers]) fun d' => by rw [calls]
    rw [bodies, Function.update_of_ne] at known
    · exact known
    · rintro rfl
      exact unwatched d n watches
  · have before := fresh (by omega)
    have installed : next.installed = io.installed := by
      rw [result]
      rfl
    refine before.step sound' sameFile (fun d => ?_) (fun ev file same => installed ▸ same)
      fun ev source member => Or.inl ?_
    · rw [installed, drivers]
      exact before.same rfl rfl
    · rw [result] at member
      exact member

/-- Another reference is taken. -/
theorem Safe.copy [DecidableEq β] (safe : io.Safe steps) {b : β} {body : FdBody δ}
    (known : io.body b = some body) (held : (droppers (io.phase b)).card < body.ref) :
    (io.setBody b (some { body with ref := body.ref + 1 })).Safe (steps + 1) := by
  obtain ⟨fault, registry, sound, told, fresh⟩ := safe
  have others : ∀ b', b' ≠ b →
      (io.setBody b (some { body with ref := body.ref + 1 })).body b' = io.body b' :=
    fun b' other => Function.update_of_ne other _ _
  have mine : (io.setBody b (some { body with ref := body.ref + 1 })).body b =
      some { body with ref := body.ref + 1 } :=
    Function.update_self _ _ _
  have sameFile : ∀ b' body' changed, io.body b' = some body' →
      (io.setBody b (some { body with ref := body.ref + 1 })).body b' = some changed →
      changed.file = body'.file := by
    intro b' body' changed before later
    by_cases same : b' = b
    · subst same
      obtain rfl := Option.some.inj (known.symm.trans before)
      rw [← Option.some.inj (mine.symm.trans later)]
    · rw [others b' same, before] at later
      rw [Option.some.inj later]
  have sound' : (io.setBody b (some { body with ref := body.ref + 1 })).Sound registry := by
    refine sound.step sound.driver sameFile (fun b' => ?_)
      (sound.owned.frame rfl rfl fun who fd file => ?_) sound.alone
    · by_cases same : b' = b
      · subst same
        right
        rw [mine]
        refine ⟨fun changed new => ?_, (by simp)⟩
        obtain rfl := Option.some.inj new
        exact (sound.body b' body known).copy held
      · exact Or.inl ⟨others b' same, rfl, rfl⟩
    · cases who with
      | inl b' =>
          by_cases same : b' = b
          · subst same
            simp [Holds, mine, known]
          · simp only [Holds, others b' same]
      | inr d => rfl
  refine ⟨fault, registry, sound', ?_, fun small => ?_⟩
  · refine told.step (fun d n b' body' watches later closed => Or.inr ⟨watches, ?_⟩)
      fun d n b' _ pending => pending.frame rfl fun _ => rfl
    by_cases same : b' = b
    · subst same
      obtain rfl := Option.some.inj (mine.symm.trans later)
      exact ⟨body, known, closed⟩
    · exact ⟨body', (others b' same).symm.trans later, closed⟩
  · have before := fresh (by omega)
    exact before.step sound' sameFile (fun d => before.same rfl rfl) (fun _ _ same => same)
      fun _ _ member => Or.inl member

theorem Safe.retire [DecidableEq β] [DecidableEq ε] (safe : io.Safe steps) (ev : ε) :
    (io.trigger [ev]).Safe (steps + 1) := by
  obtain ⟨fault, registry, sound, told, fresh⟩ := safe
  have sound' : (io.trigger [ev]).Sound registry :=
    sound.frame rfl rfl rfl (fun _ => ⟨rfl, rfl⟩) (fun _ => rfl) fun d =>
      (sound.driver d).mono (fun _ _ body _ known => ⟨body, known, rfl⟩)
        fun _ dead => trigger_of_isEmpty dead [ev]
  refine ⟨fault, registry, sound', ?_, fun small => ?_⟩
  · exact told.step (fun d n b body watches known closed => Or.inr ⟨watches, body, known, closed⟩)
      fun d n b _ pending => pending.frame rfl fun _ => rfl
  · have before := fresh (by omega)
    refine before.step sound' (fun b body changed known later => ?_)
      (fun d => before.same rfl rfl) (fun _ _ same => same) fun _ _ member => Or.inl member
    rw [Option.some.inj (known.symm.trans later)]

/-- The kernel reports what has been registered. -/
theorem Safe.ready [DecidableEq δ] [DecidableEq β] (safe : io.Safe steps) {d : δ} {fd : BitVec 32}
    {entry : Registration} (registered : (io.driver d).epoll fd.toNat = some entry)
    (mask : FdEvent) :
    (io.setDriver d { io.driver d with
      batch := (io.driver d).batch ++ [⟨⟨fd, mask, entry.epoch⟩, entry.file⟩] }).Safe
        (steps + 1) := by
  obtain ⟨fault, registry, sound, told, fresh⟩ := safe
  have mine := sound.driver d
  have ok : DriverSound io.body io.isEmpty (registry d) { io.driver d with
      batch := (io.driver d).batch ++ [⟨⟨fd, mask, entry.epoch⟩, entry.file⟩] } :=
    mine.withFds mine.refines rfl rfl rfl
  exact Safe.driverStep fault sound told fresh rfl rfl rfl rfl (fun _ => ⟨rfl, rfl⟩)
    (fun _ dead => dead) (fun _ => rfl) ok (fun d' _ _ _ _ _ _ pending =>
      pending.frame (setDriver_same IoDriver.migrateFdClose (by rfl) d') fun _ => rfl) rfl
    (fun _ _ member => Or.inl member) fun _ before => (before.driver d).ready mine registered mask

theorem Safe.dispatch [DecidableEq δ] [DecidableEq β] (safe : io.Safe steps) {d : δ}
    (drained : (io.driver d).wix = linkClean) {notification : Notification}
    {rest : List Notification} (first : (io.driver d).batch = notification :: rest) :
    ∃ next, io.dispatch d notification rest = some next ∧ next.Safe (steps + 1) := by
  obtain ⟨fault, registry, sound, told, fresh⟩ := safe
  have refines := (sound.driver d).refines
  rw [drained] at refines
  obtain ⟨left, wix, run, ok, owners⟩ := (sound.driver d).take drained notification.update.fd
    notification.update.mask notification.update.epoch rest notification.file
  refine ⟨_, by simp only [Io.dispatch, run, Option.map_some]; rfl, ?_⟩
  exact Safe.driverStep fault sound told fresh rfl rfl rfl rfl (fun _ => ⟨rfl, rfl⟩)
    (fun _ dead => dead) owners ok (fun d' _ _ _ _ _ _ pending =>
      pending.frame (setDriver_same IoDriver.migrateFdClose (by rfl) d') fun _ => rfl) rfl
    (fun _ _ member => Or.inl member) fun _ before =>
      (before.driver d).take refines.taken_eq_nil io.isEmpty first rfl rfl

theorem Safe.drain [DecidableEq δ] [DecidableEq β] [DecidableEq ε] (safe : io.Safe steps) {d : δ}
    (any : (io.driver d).wix ≠ linkClean) (mask : FdEvent) :
    (io.drain d mask).Safe (steps + 1) := by
  obtain ⟨fault, registry, sound, told, fresh⟩ := safe
  obtain ⟨first, rest, queue, run, ok⟩ := (sound.driver d).pop any mask
  simp only [Io.drain, run, Option.toList_some]
  refine Safe.driverStep fault sound told fresh rfl rfl rfl rfl (fun _ => ⟨rfl, rfl⟩)
    (fun _ dead => trigger_of_isEmpty dead [first.event]) (by exact fun _ => rfl) ok
    (fun d' _ _ _ _ _ _ pending =>
      pending.frame (setDriver_same IoDriver.migrateFdClose (by rfl) d') fun _ => rfl) rfl
    (fun ev source member => ?_) fun _ before => ?_
  · rcases List.mem_append.mp member with old | last
    · exact Or.inl old
    · obtain ⟨rfl, rfl⟩ := Prod.mk.inj (List.mem_singleton.mp last)
      exact Or.inr fun before => (before.driver d).taken first (queue ▸ List.mem_cons_self)
  · have mine := before.driver d
    exact ⟨fun n => (mine.bounded n).trans (by omega), mine.batch, mine.waits,
      fun watch member => mine.taken watch (queue ▸ List.mem_cons_of_mem first member)⟩

theorem Safe.reconcile [DecidableEq δ] [DecidableEq β] (safe : io.Safe steps) (d : δ) :
    ∃ next, io.reconcile d = some next ∧ next.Safe (steps + 1) := by
  obtain ⟨fault, registry, sound, told, fresh⟩ := safe
  obtain ⟨left, run, ok⟩ := (sound.driver d).reconcile io.os fun fd b interest => by
    obtain ⟨body, known, -, -, isOpen⟩ := sound.owner_of_watched interest
    exact ⟨body, known, isOpen⟩
  simp only [Io.reconcile, run, Option.bind_some]
  have owners := (registry d).body_update io.isEmpty
  cases update : ((registry d).update io.isEmpty).2 with
  | none =>
      rw [update] at ok
      refine ⟨io, rfl, fault, registry, sound, told, fun small => ?_⟩
      have before := fresh (by omega)
      refine before.step sound (fun b body changed known later => ?_)
        (fun d => before.same rfl rfl) (fun _ _ same => same) fun _ _ member => Or.inl member
      rw [Option.some.inj (known.symm.trans later)]
  | some fdu =>
      rw [update] at ok
      obtain ⟨driver, applied, messages, batch, source, ok⟩ := ok
      refine ⟨io.setDriver d driver, by simp only [applied, Option.map_some], ?_⟩
      exact Safe.driverStep fault sound told fresh rfl rfl rfl rfl (fun _ => ⟨rfl, rfl⟩)
        (fun _ dead => dead) owners ok (fun d' _ _ _ _ _ _ pending =>
          pending.frame (setDriver_same IoDriver.migrateFdClose messages d') fun _ => rfl) rfl
        (fun _ _ member => Or.inl member) fun small before =>
          (before.driver d).update small io.isEmpty batch source

theorem safe_initial [DecidableEq β] (fdrs : δ → Nat → FdRec β) (ws : δ → Nat → WatchRec ε) :
    (initial fdrs ws : Io δ β ε).Safe 0 := by
  have none : ∀ who fd file, ¬(initial fdrs ws : Io δ β ε).Holds who fd file := by
    rintro (b | d) fd file
    · rintro ⟨body, known, -⟩
      cases known
    · rintro ⟨baseFd, deletable, front, -⟩
      cases front
  refine ⟨rfl, fun _ => .empty, ⟨fun d => ⟨construct_refines _ _, ⟨fun fd => ?_, ?_, ?_, ?_⟩,
    ?_, ?_, ?_, ?_⟩, ?_, ?_, fun d b busy => ?_, ⟨fun fd file => ?_, ?_, ?_⟩, ?_⟩, ?_,
    fun _ => ⟨fun d => ⟨fun n => ?_, ?_, ?_, ?_⟩, ?_⟩⟩
  · simp [heldMask, unpackMask, initial]
  · rintro fd entry ⟨⟩
  · simp [IoDriver.registered, initial]
  · simp [IoDriver.registered, initial]
  · rintro fd entry ⟨⟩
  · rintro fd watch ⟨⟩
  · rintro fd watch ⟨⟩
  · rintro fd any
    exact absurd rfl any
  · rintro b body ⟨⟩
  · rintro d fd b ⟨⟩
  · exact absurd (IoCall.phase_of_idle rfl rfl b) busy
  · refine iff_of_false (Option.some_ne_none file).symm ?_
    rintro ⟨who, holds⟩
    exact none who fd file holds
  · rintro who who' fd fd' file holds
    exact absurd holds (none who fd file)
  · rintro fd file ⟨⟩
  · exact fun _ any => absurd rfl any
  · rintro d fd b body ⟨⟩
  · exact Nat.zero_le _
  · rintro notification ⟨⟩
  · rintro n watch ⟨⟩
  · rintro watch ⟨⟩
  · rintro ev source ⟨⟩

/-! ## Steps and runs -/

variable [DecidableEq δ] [DecidableEq β] [DecidableEq ε]

omit [DecidableEq δ] [DecidableEq ε] in
/-- A driver does something only to a body that has not been deleted. -/
theorem Safe.exists_body (safe : io.Safe steps) {d : δ} {front : IoAccess β}
    (here : (io.call d).front = some front) {b : β} (busy : front.phase b ≠ .away) :
    ∃ body, io.body b = some body := by
  obtain ⟨-, registry, sound, -⟩ := safe
  apply sound.involved d b
  rwa [phase, IoCall.phase_of_front here]

omit [DecidableEq δ] [DecidableEq ε] in
theorem Safe.orFault {result : Option (Io δ β ε)}
    (defined : ∃ next, result = some next ∧ next.Safe steps) :
    (io.orFault result).Safe steps := by
  obtain ⟨next, rfl, safe⟩ := defined
  exact safe

/-- The next access of a call in progress. -/
theorem Safe.work (safe : io.Safe steps) {d : δ} (settled : io.overtakes (.work d) = false)
    (worked : io.work d = some next) : next.Safe (steps + 1) := by
  cases front : (io.call d).front with
  | some access =>
      cases access with
      | release b =>
          -- `deref` has loaded another count than 1
          simp only [Io.work, front, Option.some.injEq] at worked
          obtain ⟨body, known⟩ := safe.exists_body front (b := b) (by simp [IoAccess.phase])
          rw [← worked]
          refine Safe.orFault (safe.release front known fun one => ?_)
          simp [overtakes, front, known, one] at settled
      | close b =>
          simp only [Io.work, front, Option.some.injEq] at worked
          obtain ⟨body, known⟩ := safe.exists_body front (b := b) (by simp [IoAccess.phase])
          rw [← worked]
          have closed : ∃ next, io.close d b true = some next ∧ next.Safe (steps + 1) :=
            safe.close known front (by simp)
          exact Safe.orFault closed
      | watch b fd mask =>
          simp only [Io.work, front] at worked
          cases worked
      | removeListener b =>
          simp only [Io.work, front, Option.some.injEq] at worked
          rw [← worked]
          exact Safe.orFault (safe.removeListener front)
      | osClose fd file deletable =>
          simp only [Io.work, front, Option.some.injEq] at worked
          rw [← worked]
          exact Safe.orFault (safe.osClose front)
      | delete b =>
          simp only [Io.work, front, Option.some.injEq] at worked
          rw [← worked]
          exact Safe.orFault (safe.deleteBody front)
  | none =>
      cases joins : (io.call d).joins with
      | some b =>
          simp only [Io.work, front, joins, Option.some.injEq] at worked
          rw [← worked]
          exact Safe.orFault (safe.addListener front joins)
      | none =>
          cases first : (io.call d).todo with
          | nil =>
              simp only [Io.work, front, joins, first] at worked
              cases worked
          | cons notice rest =>
              obtain ⟨dx, baseFd⟩ := notice
              simp only [Io.work, front, joins, first, Option.some.injEq] at worked
              rw [← worked]
              refine Safe.orFault ?_
              unfold Io.notify
              by_cases here : dx = d
              · subst here
                rw [if_pos rfl]
                exact safe.notifyClose front joins first
              · rw [if_neg here]
                exact ⟨_, rfl, safe.migrateFdClose first⟩

/-- No access that does not overtake another driver faults, and what holds between the
drivers, the bodies and the kernel is kept. -/
theorem Safe.step {action : IoAction δ β ε} (safe : io.Safe steps)
    (settled : io.overtakes action = false) (stepped : io.step action = some next) :
    next.Safe (steps + 1) := by
  have held : ∀ b, io.held b = true →
      ∃ body, io.body b = some body ∧ (droppers (io.phase b)).card < body.ref := by
    intro b held
    rw [Io.held, Option.any_eq_true] at held
    simpa using held
  unfold Io.step at stepped
  rw [if_neg (by simp [safe.1])] at stepped
  cases action with
  | wrap b fd =>
      simp only at stepped
      split at stepped
      · obtain rfl := Option.some.inj stepped
        rename_i free
        exact safe.wrap free.1 free.2.1 free.2.2
      · cases stepped
  | copy b =>
      simp only at stepped
      split at stepped
      · obtain rfl := Option.some.inj stepped
        rename_i alive
        obtain ⟨body, known, spare⟩ := held b alive
        rw [known]
        exact safe.copy known spare
      · cases stepped
  | deref d b =>
      simp only at stepped
      split at stepped
      · obtain rfl := Option.some.inj stepped
        rename_i ready
        obtain ⟨idle, droppable⟩ := ready
        rw [Io.droppable, Option.any_eq_true] at droppable
        obtain ⟨body, known, spare⟩ := droppable
        exact Safe.orFault (safe.deref idle known (by simpa using spare))
      · cases stepped
  | close d b =>
      simp only at stepped
      split at stepped
      · obtain rfl := Option.some.inj stepped
        rename_i ready
        obtain ⟨body, known, spare⟩ := held b ready.2
        refine Safe.orFault (safe.close known (by exact ⟨ready.1, spare⟩)
          fun _ positive d' borrows => ?_)
        simp only [overtakes, known, Option.any_some, positive, Bool.not_false, Bool.true_and,
          decide_eq_false_iff_not, not_not] at settled
        exact List.mem_toFinset.mp (settled (mem_borrowers.mpr borrows))
      · cases stepped
  | fileEvent d b mask =>
      simp only at stepped
      split at stepped
      · obtain rfl := Option.some.inj stepped
        rename_i ready
        obtain ⟨body, known, spare⟩ := held b ready.2
        exact Safe.orFault (safe.fileEvent ready.1 known spare mask)
      · cases stepped
  | watch d ev =>
      simp only at stepped
      split at stepped
      · rename_i front
        split at stepped
        · obtain rfl := Option.some.inj stepped
          rename_i new
          exact Safe.orFault (safe.watch front new.1)
        · cases stepped
      · cases stepped
  | work d => exact safe.work settled stepped
  | retire ev =>
      obtain rfl := Option.some.inj stepped
      exact safe.retire ev
  | reconcile d =>
      simp only at stepped
      split at stepped
      · obtain rfl := Option.some.inj stepped
        exact Safe.orFault (safe.reconcile d)
      · cases stepped
  | ready d fd mask =>
      simp only at stepped
      split at stepped
      · cases stepped
      · obtain ⟨entry, registered, rfl⟩ := Option.map_eq_some_iff.mp stepped
        exact safe.ready registered mask
  | dispatch d =>
      simp only at stepped
      split at stepped
      · cases stepped
      · rename_i drained
        rw [not_or, not_not, not_not] at drained
        split at stepped
        · cases stepped
        · rename_i first
          obtain rfl := Option.some.inj stepped
          exact Safe.orFault (safe.dispatch drained.2 first)
  | drain d mask =>
      simp only at stepped
      split at stepped
      · cases stepped
      · rename_i any
        obtain rfl := Option.some.inj stepped
        rw [not_or] at any
        exact safe.drain any.2 mask
  | finishMigrate d =>
      simp only at stepped
      split at stepped
      · obtain rfl := Option.some.inj stepped
        rename_i idle
        exact safe.finishMigrate idle
      · cases stepped

/-- Every state that a run reaches in which no access overtakes another driver is safe. -/
theorem Safe.run {actions : List (IoAction δ β ε)} (safe : io.Safe steps)
    (careful : Transition.Permitted Io.step (fun io action => io.overtakes action = false) io
      actions)
    (run : Transition.perform Io.step io actions = some final) :
    final.Safe (steps + actions.length) := by
  induction actions generalizing io steps with
  | nil =>
      obtain rfl := Option.some.inj run
      exact safe
  | cons action rest ih =>
      obtain ⟨next, stepped, more⟩ := Option.bind_eq_some_iff.mp run
      have after := ih (safe.step careful.1 stepped) (careful.2 next stepped) more
      rwa [List.length_cons, Nat.add_comm rest.length, ← Nat.add_assoc]

theorem safe_of_run {fdrs : δ → Nat → FdRec β} {ws : δ → Nat → WatchRec ε}
    {actions : List (IoAction δ β ε)}
    (careful : Transition.Permitted Io.step (fun io action => io.overtakes action = false)
      (initial fdrs ws) actions)
    (run : Transition.perform Io.step (initial fdrs ws) actions = some final) :
    final.Safe actions.length := by
  have safe := (safe_initial fdrs ws).run careful run
  rwa [Nat.zero_add] at safe

/-! ## Results -/

/-- A body is closed on one driver while the other watches its descriptor.  The other gives
the descriptor up and closes it, and the last reference is dropped. -/
def closedElsewhere : List (IoAction Bool Nat Nat) :=
  [.wrap 0 5, .fileEvent true 0 1, .watch true 7, .work true, .reconcile true, .ready true 5 1,
    .close false 0, .work false, .deref false 0, .finishMigrate true, .work true, .work true,
    .work false, .work true, .work false]

theorem closedElsewhere_careful : Transition.Permitted Io.step
    (fun io action => io.overtakes action = false)
    (initial (fun _ _ => {}) fun _ _ => ⟨none, 0, 0⟩) closedElsewhere := by
  decide +kernel

theorem closedElsewhere_rests : (Transition.perform Io.step
    (initial (fun _ _ => {}) fun _ _ => ⟨none, 0, 0⟩) closedElsewhere).any (fun final =>
      decide (final.os 5 = none ∧ (final.body 0).isNone ∧
        ∀ d, (final.call d).idle ∧ (final.driver d).migrateFdClose = [])) = true := by
  decide +kernel

/-- No run in which no access overtakes another driver throws, dereferences nothing, reaches
a deleted body, closes a descriptor that is not its own, or asks the kernel for a change
that it refuses. -/
theorem never_faults (fdrs : δ → Nat → FdRec β) (ws : δ → Nat → WatchRec ε)
    (actions : List (IoAction δ β ε))
    (careful : Transition.Permitted Io.step (fun io action => io.overtakes action = false)
      (initial fdrs ws) actions) :
    ∀ final ∈ Transition.perform Io.step (initial fdrs ws) actions, final.fault = false :=
  fun _ run => (safe_of_run careful run).1

theorem never_faults_closedElsewhere : ∃ final, Transition.perform Io.step
    (initial (fun _ _ => {}) fun _ _ => ⟨none, 0, 0⟩) closedElsewhere = some final ∧
      final.fault = false := by
  obtain ⟨final, run, -⟩ := (Option.any_eq_true _ _).mp closedElsewhere_rests
  exact ⟨final, run, never_faults _ _ _ closedElsewhere_careful final run⟩

/-- A descriptor is closed between `fileno` and the watch, and perhaps its number is given
to another file. -/
def closedMeanwhile (others : List (IoAction Bool Nat Nat)) : List (IoAction Bool Nat Nat) :=
  [.wrap 0 5, .fileEvent true 0 1, .close false 0, .work false] ++ others ++
    [.watch true 7, .work true, .reconcile true]

/-- The kernel is asked to watch a descriptor that is not open. -/
theorem closedMeanwhile_faults : (Transition.perform Io.step
    (initial (fun _ _ => {}) fun _ _ => ⟨none, 0, 0⟩) (closedMeanwhile [])).map Io.fault =
      some true := by
  decide +kernel

/-- What the live watches of a descriptor want to know is registered with the kernel,
unless the descriptor is on the list of those to reconcile. -/
theorem watches_registered (fdrs : δ → Nat → FdRec β) (ws : δ → Nat → WatchRec ε)
    (actions : List (IoAction δ β ε))
    (careful : Transition.Permitted Io.step (fun io action => io.overtakes action = false)
      (initial fdrs ws) actions) :
    ∀ final ∈ Transition.perform Io.step (initial fdrs ws) actions, ∀ d fd,
      ∃ mask, (final.driver d).fds.fdMask final.isEmpty fd = some mask ∧
        (((final.driver d).fds.fdr fd.toNat).updateLink = linkClean →
          mask &&& (((final.driver d).epoll fd.toNat).map Registration.mask).getD 0 = mask) := by
  intro final run d fd
  obtain ⟨-, registry, sound, -, -⟩ := safe_of_run careful run
  have mine := sound.driver d
  refine ⟨_, mine.refines.fdMask final.isEmpty fd, fun settled => ?_⟩
  rw [mine.refines.records.queued] at settled
  apply wanted_and
  intro watch member live
  obtain ⟨entry, known, covered⟩ := mine.armed fd.toNat watch member live settled
  rw [known]
  exact covered

/-- A driver watches a descriptor, and the kernel has been told. -/
def watchedElsewhere : List (IoAction Bool Nat Nat) :=
  [.wrap 0 5, .copy 0, .fileEvent true 0 1, .watch true 7, .deref false 0, .work true,
    .reconcile true, .work false]

theorem watchedElsewhere_careful : Transition.Permitted Io.step
    (fun io action => io.overtakes action = false)
    (initial (fun _ _ => {}) fun _ _ => ⟨none, 0, 0⟩) watchedElsewhere := by
  decide +kernel

theorem watchedElsewhere_runs : ((Transition.perform Io.step
    (initial (fun _ _ => {}) fun _ _ => ⟨none, 0, 0⟩) watchedElsewhere).map
      fun final => ((final.driver true).epoll 5).map Registration.mask) = some (some 1) := by
  decide +kernel

theorem watches_registered_watchedElsewhere : ∃ final, Transition.perform Io.step
    (initial (fun _ _ => {}) fun _ _ => ⟨none, 0, 0⟩) watchedElsewhere = some final ∧
      ∃ mask, (final.driver true).fds.fdMask final.isEmpty 5 = some mask ∧
        (((final.driver true).fds.fdr 5).updateLink = linkClean →
          mask &&& (((final.driver true).epoll 5).map Registration.mask).getD 0 = mask) := by
  obtain ⟨final, run, -⟩ := Option.map_eq_some_iff.mp watchedElsewhere_runs
  exact ⟨final, run, watches_registered _ _ _ watchedElsewhere_careful final run true 5⟩

/-- No call is in progress and no message waits. -/
def Resting (io : Io δ β ε) : Prop :=
  ∀ d, (io.call d).idle = true ∧ (io.driver d).migrateFdClose = []

omit [Fintype δ] [DecidableEq δ] [DecidableEq β] [DecidableEq ε] in
theorem Resting.not_pending (resting : io.Resting) (d : δ) (fd : Nat) : ¬io.Pending d fd := by
  rintro (⟨message, sent, -⟩ | ⟨d', message, waits, -⟩)
  · rw [(resting d).2] at sent
    cases sent
  · rw [(IoCall.of_idle (resting d').1).2.2] at waits
    cases waits

omit [DecidableEq δ] [DecidableEq ε] in
/-- When nothing is left to be done, a body is open and somebody refers to it, or it is
closed and nobody listens. -/
theorem Sound.body_of_resting (sound : io.Sound registry) (told : io.Told registry)
    (resting : io.Resting) {b : β} {body : FdBody δ} (known : io.body b = some body) :
    0 < body.ref ∧ (body.fd.slt 0 = true → body.drivers = []) := by
  have ok := sound.body b body known
  have away : ∀ d, io.phase b d = .away := fun d =>
    IoCall.phase_of_idle (IoCall.of_idle (resting d).1).1 (IoCall.of_idle (resting d).1).2.1 b
  have deaf : body.fd.slt 0 = true → body.drivers = [] := by
    intro closed
    by_contra any
    obtain ⟨d, listens⟩ := List.exists_mem_of_ne_nil _ any
    rw [ok.listens, away] at listens
    obtain ⟨⟨fd, watches⟩, -⟩ := listens.resolve_right (by simp)
    exact resting.not_pending d fd (told d fd b body watches known closed)
  refine ⟨Nat.pos_of_ne_zero fun zero => ?_, deaf⟩
  rcases ok.kept zero with any | ⟨d, deletes⟩
  · refine any (deaf ?_)
    by_contra positive
    exact absurd zero (ok.opened (by simpa using positive)).2.ne'
  · rw [away] at deletes
    cases deletes

/-- A descriptor is open as long as its body has not been closed, some driver listens to it,
or a driver is about to close it.  A body lists the drivers that watch it, except that one
which is about to join is not listed yet and one which is about to leave still is, and those
that watch a closed body have been told or are about to be.  When nothing is left to be
done, the open descriptors are those of the open bodies, and somebody refers to each body. -/
theorem open_iff_in_use (fdrs : δ → Nat → FdRec β) (ws : δ → Nat → WatchRec ε)
    (actions : List (IoAction δ β ε))
    (careful : Transition.Permitted Io.step (fun io action => io.overtakes action = false)
      (initial fdrs ws) actions) :
    ∀ final ∈ Transition.perform Io.step (initial fdrs ws) actions,
      (∀ fd file, final.os fd = some file ↔
        (∃ b body, final.body b = some body ∧ body.file = file ∧ body.baseFd.toNat = fd ∧
          (body.fd.slt 0 = false ∨ body.drivers ≠ [])) ∨
        ∃ d baseFd deletable, (final.call d).front = some (.osClose baseFd file deletable) ∧
          baseFd.toNat = fd) ∧
      (∀ b body, final.body b = some body →
        (body.ref = 0 → body.drivers ≠ [] ∨ ∃ d, final.phase b d = .deletes) ∧
        ∀ d, (d ∈ body.drivers ↔
            (∃ fd, ((final.driver d).fds.fdr fd).body = some b) ∧ final.phase b d ≠ .joins ∨
              final.phase b d = .leaves) ∧
          (d ∈ body.drivers → final.os body.baseFd.toNat = some body.file) ∧
          (body.fd.slt 0 = true → (∃ fd, ((final.driver d).fds.fdr fd).body = some b) →
            final.Pending d body.baseFd.toNat)) ∧
      (final.Resting →
        (∀ fd file, final.os fd = some file ↔ ∃ b body, final.body b = some body ∧
          body.file = file ∧ body.fd.toNat = fd ∧ body.fd.slt 0 = false) ∧
        ∀ b body, final.body b = some body → 0 < body.ref) := by
  intro final run
  obtain ⟨-, registry, sound, told, -⟩ := safe_of_run careful run
  have owners : ∀ fd file, final.os fd = some file ↔
      (∃ b body, final.body b = some body ∧ body.file = file ∧ body.baseFd.toNat = fd ∧
        (body.fd.slt 0 = false ∨ body.drivers ≠ [])) ∨
      ∃ d baseFd deletable, (final.call d).front = some (.osClose baseFd file deletable) ∧
        baseFd.toNat = fd := by
    intro fd file
    rw [sound.owned.held]
    constructor
    · rintro ⟨b | d, holds⟩
      · obtain ⟨body, known, base, number, file⟩ := holds
        exact Or.inl ⟨b, body, known, file, number, (sound.body b body known).used_iff.mpr base⟩
      · exact Or.inr ⟨d, holds⟩
    · rintro (⟨b, body, known, file, number, used⟩ | ⟨d, holds⟩)
      · exact ⟨.inl b, body, known, (sound.body b body known).used_iff.mp used, number, file⟩
      · exact ⟨.inr d, holds⟩
  refine ⟨owners, fun b body known => ?_,
    fun resting => ⟨fun fd file => ?_, fun b body known => ?_⟩⟩
  · have ok := sound.body b body known
    have tables : ∀ d fd, ((final.driver d).fds.fdr fd).body = ((registry d).interest fd).body :=
      fun d fd => (sound.driver d).refines.records.body fd
    refine ⟨ok.kept, fun d => ⟨?_, fun listens => ?_, fun closed watches => ?_⟩⟩
    · rw [ok.listens]
      simp only [tables, Interested]
    · exact (sound.owned.held _ _).mpr ⟨.inl b, body, known, ok.based listens, rfl, rfl⟩
    · obtain ⟨fd, watches⟩ := watches
      rw [tables] at watches
      rw [ok.place d fd watches]
      exact told d fd b body watches known closed
  · rw [owners]
    constructor
    · rintro (⟨b, body, known, same, number, used⟩ | ⟨d, baseFd, deletable, front, -⟩)
      · have ok := sound.body b body known
        have deaf := (sound.body_of_resting told resting known).2
        have positive : body.fd.slt 0 = false := by
          rcases used with positive | any
          · exact positive
          · by_contra closed
            exact any (deaf (by simpa using closed))
        exact ⟨b, body, known, same, (ok.opened positive).1 ▸ number, positive⟩
      · rw [(IoCall.of_idle (resting d).1).1] at front
        cases front
    · rintro ⟨b, body, known, same, number, positive⟩
      have ok := sound.body b body known
      exact Or.inl ⟨b, body, known, same, (ok.opened positive).1 ▸ number, Or.inl positive⟩
  · exact (sound.body_of_resting told resting known).1

theorem open_iff_in_use_closedElsewhere : ∃ final, Transition.perform Io.step
    (initial (fun _ _ => {}) fun _ _ => ⟨none, 0, 0⟩) closedElsewhere = some final ∧
      final.os 5 = none ∧ final.Resting ∧
        ∀ fd file, final.os fd = some file ↔ ∃ b body, final.body b = some body ∧
          body.file = file ∧ body.fd.toNat = fd ∧ body.fd.slt 0 = false := by
  obtain ⟨final, run, rests⟩ := (Option.any_eq_true _ _).mp closedElsewhere_rests
  rw [decide_eq_true_iff] at rests
  exact ⟨final, run, rests.1, rests.2.2,
    ((open_iff_in_use _ _ _ closedElsewhere_careful final run).2.2 rests.2.2).1⟩

/-- Two drivers drop the last two copies of a body at the same time. -/
def droppedTogether : List (IoAction Bool Nat Nat) :=
  [.wrap 0 5, .copy 0, .deref true 0, .deref false 0, .work true, .work false]

/-- Nobody refers to the body any more and nobody is about to do anything, but its
descriptor is open. -/
theorem droppedTogether_leaks : (Transition.perform Io.step
    (initial (fun _ _ => {}) fun _ _ => ⟨none, 0, 0⟩) droppedTogether).map
      (fun final => (final.os 5, (final.body 0).map FdBody.ref,
        (final.call true).idle && (final.call false).idle)) = some (some 0, some 0, true) := by
  decide +kernel

/-- A notification triggers only events that were installed for the open file that it is
about, however late it is processed, as long as epochs do not wrap around. -/
theorem delivered_for_file (fdrs : δ → Nat → FdRec β) (ws : δ → Nat → WatchRec ε)
    (actions : List (IoAction δ β ε)) (short : actions.length + 2 < 2 ^ 32)
    (careful : Transition.Permitted Io.step (fun io action => io.overtakes action = false)
      (initial fdrs ws) actions) :
    ∀ final ∈ Transition.perform Io.step (initial fdrs ws) actions, ∀ ev source,
      (ev, source) ∈ final.delivered → final.installed ev = some source := by
  intro final run
  obtain ⟨-, registry, -, -, fresh⟩ := safe_of_run careful run
  exact (fresh short).delivered

/-- A notification is processed when its descriptor has been given to another file. -/
def numberUsedAgain : List (IoAction Bool Nat Nat) :=
  [.wrap 0 5, .fileEvent true 0 1, .watch true 7, .work true, .reconcile true, .ready true 5 1,
    .close true 0, .work true, .work true, .work true, .wrap 1 5, .fileEvent true 1 1,
    .watch true 8, .work true, .reconcile true, .dispatch true, .ready true 5 1, .dispatch true,
    .drain true 1]

theorem numberUsedAgain_careful : Transition.Permitted Io.step
    (fun io action => io.overtakes action = false)
    (initial (fun _ _ => {}) fun _ _ => ⟨none, 0, 0⟩) numberUsedAgain := by
  decide +kernel

theorem numberUsedAgain_delivers : (Transition.perform Io.step
    (initial (fun _ _ => {}) fun _ _ => ⟨none, 0, 0⟩) numberUsedAgain).map Io.delivered =
      some [(8, 1)] := by
  decide +kernel

theorem delivered_for_file_numberUsedAgain : ∃ final, Transition.perform Io.step
    (initial (fun _ _ => {}) fun _ _ => ⟨none, 0, 0⟩) numberUsedAgain = some final ∧
      final.installed 8 = some 1 := by
  obtain ⟨final, run, delivered⟩ := Option.map_eq_some_iff.mp numberUsedAgain_delivers
  refine ⟨final, run, delivered_for_file _ _ _ (by decide) numberUsedAgain_careful final run 8 1 ?_⟩
  rw [delivered]
  exact List.mem_singleton_self _

/-- The event that was returned for the first file is triggered by the other. -/
theorem closedMeanwhile_delivers : (Transition.perform Io.step
    (initial (fun _ _ => {}) fun _ _ => ⟨none, 0, 0⟩)
      (closedMeanwhile [.wrap 1 5] ++ [.ready true 5 1, .dispatch true, .drain true 1])).map
        (fun final => (final.installed 7, final.delivered)) = some (some 0, [(7, 1)]) := by
  decide +kernel

end Io

end DoomDraft.Cotamer
