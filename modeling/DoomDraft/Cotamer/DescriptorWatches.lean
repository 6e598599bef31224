import DoomDraft.Cotamer.DescriptorCalls

/-!
# Watching and giving up

A driver watches the descriptor of a body on behalf of the program, tells the kernel so,
and gives the descriptor up when it has been told that the body is closed.
-/

namespace DoomDraft.Cotamer

open FdEventSet

universe u v w

variable {δ : Type w} {β : Type u} {ε : Type v}

namespace Io

variable {io next : Io δ β ε} {registry after : δ → Registry β ε} {steps : Nat}

/-! ## One driver on its own -/

/-- Nothing changes that other drivers share. -/
theorem Sound.frame [Fintype δ] [DecidableEq β] (sound : io.Sound registry)
    (bodies : next.body = io.body) (os : next.os = io.os) (files : next.files = io.files)
    (calls : ∀ d, (next.call d).front = (io.call d).front ∧
      (next.call d).joins = (io.call d).joins)
    (owners : ∀ b, Interested after b = Interested registry b)
    (drivers : ∀ d, DriverSound io.body next.isEmpty (after d) (next.driver d)) :
    next.Sound after := by
  have phases : ∀ b, next.phase b = io.phase b := by
    intro b
    funext d
    simp only [phase, IoCall.phase, calls d]
  refine sound.step drivers (fun b body changed before later => ?_)
    (fun b => Or.inl ⟨by rw [bodies], owners b, phases b⟩)
    (sound.owned.frame os files fun who fd file => ?_) (fun d => ?_)
  · rw [bodies, before] at later
    rw [Option.some.inj later]
  · cases who with
    | inl b => simp only [Holds, bodies]
    | inr d => simp only [Holds, calls d]
  · rw [(calls d).1, (calls d).2]
    exact sound.alone d

theorem interested_update [DecidableEq δ] {d : δ} {queues : Registry β ε}
    (sameOwner : ∀ fd, (queues.interest fd).body = ((registry d).interest fd).body) (b : β) :
    Interested (Function.update registry d queues) b = Interested registry b := by
  funext d' fd
  unfold Interested
  by_cases same : d' = d
  · subst same
    rw [Function.update_self, sameOwner]
  · rw [Function.update_of_ne same]

/-- A step of one driver that changes no owner of a descriptor. -/
theorem Safe.driverStep [Fintype δ] [DecidableEq δ] [DecidableEq β] (fault : next.fault = false)
    (sound : io.Sound registry) (told : io.Told registry)
    (fresh : steps + 2 < 2 ^ 32 → io.Fresh registry steps) {d : δ} {driver : IoDriver β ε}
    {queues : Registry β ε} (drivers : next.driver = Function.update io.driver d driver)
    (bodies : next.body = io.body) (os : next.os = io.os) (files : next.files = io.files)
    (calls : ∀ d, (next.call d).front = (io.call d).front ∧
      (next.call d).joins = (io.call d).joins)
    (dead : ∀ ev, io.isEmpty ev = true → next.isEmpty ev = true)
    (sameOwner : ∀ fd, (queues.interest fd).body = ((registry d).interest fd).body)
    (ok : DriverSound io.body io.isEmpty queues driver)
    (pending : ∀ d' fd b body, Interested registry b d' fd → io.body b = some body →
      body.fd.slt 0 = true → io.Pending d' fd → next.Pending d' fd)
    (installed : next.installed = io.installed)
    (delivered : ∀ ev source, (ev, source) ∈ next.delivered → (ev, source) ∈ io.delivered ∨
      (io.Fresh registry steps → io.installed ev = some source))
    (kept : steps + 3 < 2 ^ 32 → io.Fresh registry steps →
      DriverFresh io.body io.installed queues driver (steps + 1)) :
    next.Safe (steps + 1) := by
  have sound' : next.Sound (Function.update registry d queues) := by
    refine sound.frame bodies os files calls (interested_update sameOwner) fun d' => ?_
    rw [drivers]
    by_cases same : d' = d
    · subst same
      rw [Function.update_self, Function.update_self]
      exact ok.mono (fun _ _ body _ known => ⟨body, known, rfl⟩) dead
    · rw [Function.update_of_ne same, Function.update_of_ne same]
      exact (sound.driver d').mono (fun _ _ body _ known => ⟨body, known, rfl⟩) dead
  refine ⟨fault, _, sound', fun d' fd b body watches known closed => ?_, fun small => ?_⟩
  · rw [interested_update sameOwner] at watches
    rw [bodies] at known
    exact pending d' fd b body watches known closed (told d' fd b body watches known closed)
  · have before := fresh (by omega)
    refine before.step sound' (fun b body changed known later => ?_) (fun d' => ?_)
      (fun ev file same => ?_) (fun ev source member => ?_)
    · rw [bodies, known] at later
      rw [Option.some.inj later]
    · rw [installed, drivers]
      by_cases same : d' = d
      · subst same
        rw [Function.update_self, Function.update_self]
        exact kept small before
      · rw [Function.update_of_ne same, Function.update_of_ne same]
        exact before.same rfl rfl
    · rw [installed]
      exact same
    · rw [installed]
      exact (delivered ev source member).imp_right fun new => new before

/-- A step of one driver on behalf of a body, which changes what the driver watches. -/
theorem Safe.tableStep [Fintype δ] [DecidableEq δ] [DecidableEq β] (fault : next.fault = false)
    (sound : io.Sound registry) (fresh : steps + 2 < 2 ^ 32 → io.Fresh registry steps) {b : β}
    {d : δ} {body : FdBody δ} (known : io.body b = some body) {driver : IoDriver β ε}
    {queues : Registry β ε} {call : IoCall δ β}
    (drivers : next.driver = Function.update io.driver d driver)
    (calls : next.call = Function.update io.call d call) (bodies : next.body = io.body)
    (os : next.os = io.os) (files : next.files = io.files)
    (dead : ∀ ev, io.isEmpty ev = true → next.isEmpty ev = true)
    (grows : ∀ ev file, io.installed ev = some file → next.installed ev = some file)
    (delivered : next.delivered = io.delivered)
    (elsewhere : ∀ b', b' ≠ b → call.phase b' = (io.call d).phase b')
    (alone : call.joins ≠ none → call.front = none) (before : (io.call d).Keeps)
    (keeps : call.Keeps) (ok : DriverSound io.body io.isEmpty queues driver)
    (others : ∀ b', b' ≠ b → ∀ n, (queues.interest n).body = some b' ↔ Interested registry b' d n)
    (mine : BodySound (Interested (Function.update registry d queues) b)
      (Function.update (io.phase b) d (call.phase b)) body)
    (told : next.Told (Function.update registry d queues))
    (kept : steps + 3 < 2 ^ 32 → io.Fresh registry steps →
      DriverFresh io.body next.installed queues driver (steps + 1)) :
    next.Safe (steps + 1) := by
  have sameFile : ∀ b body changed, io.body b = some body → next.body b = some changed →
      changed.file = body.file := by
    intro b body changed before later
    rw [bodies, before] at later
    rw [Option.some.inj later]
  have sound' : next.Sound (Function.update registry d queues) := by
    refine sound.step (fun d' => ?_) sameFile (fun b' => ?_)
      (sound.owned.frame os files fun who fd file => ?_) (fun d' => ?_)
    · rw [drivers]
      by_cases same : d' = d
      · subst same
        rw [Function.update_self, Function.update_self]
        exact ok.mono (fun _ _ body _ known => ⟨body, known, rfl⟩) dead
      · rw [Function.update_of_ne same, Function.update_of_ne same]
        exact (sound.driver d').mono (fun _ _ body _ known => ⟨body, known, rfl⟩) dead
    · by_cases same : b' = b
      · subst same
        right
        rw [bodies, known, phase_of_call calls]
        refine ⟨fun changed kept => ?_, (by simp)⟩
        obtain rfl := Option.some.inj kept
        exact mine
      · refine Or.inl ⟨by rw [bodies], ?_, phase_eq_of_call calls (elsewhere b' same)⟩
        funext d' n
        unfold Interested
        by_cases here : d' = d
        · subst here
          rw [Function.update_self, eq_iff_iff]
          exact others b' same n
        · rw [Function.update_of_ne here]
    · cases who with
      | inl b' => simp only [Holds, bodies]
      | inr d' =>
          by_cases same : d' = d
          · subst same
            refine iff_of_false (not_holds_of_keeps ?_ fd file) (not_holds_of_keeps before fd file)
            rw [calls, Function.update_self]
            exact keeps
          · simp only [Holds, calls, Function.update_of_ne same]
    · rw [calls]
      by_cases same : d' = d
      · subst same
        rw [Function.update_self]
        exact alone
      · rw [Function.update_of_ne same]
        exact sound.alone d'
  refine ⟨fault, _, sound', told, fun small => ?_⟩
  have earlier := fresh (by omega)
  refine earlier.step sound' sameFile (fun d' => ?_) grows
    (fun ev source member => Or.inl (delivered ▸ member))
  rw [drivers]
  by_cases same : d' = d
  · subst same
    rw [Function.update_self, Function.update_self]
    exact kept small earlier
  · rw [Function.update_of_ne same, Function.update_of_ne same]
    exact (earlier.driver d').mono (fun _ _ body _ known => ⟨body, known, rfl⟩) grows
      (Nat.le_succ steps)

/-- Messages and notifications stay where they are. -/
theorem Pending.frame {d : δ} {fd : Nat} (pending : io.Pending d fd)
    (messages : (next.driver d).migrateFdClose = (io.driver d).migrateFdClose)
    (todo : ∀ d', (next.call d').todo = (io.call d').todo) : next.Pending d fd := by
  refine pending.mono (fun message sent => Or.inl ?_) fun d' message waits _ => Or.inr ⟨d', ?_⟩
  · rw [messages]
    exact sent
  · rw [todo]
    exact waits

/-- What a change of one driver leaves alone. -/
theorem setDriver_same [DecidableEq δ] {γ : Sort*} (part : IoDriver β ε → γ) {d : δ}
    {driver : IoDriver β ε} (same : part driver = part (io.driver d)) (d' : δ) :
    part ((io.setDriver d driver).driver d') = part (io.driver d') := by
  simp only [setDriver]
  by_cases here : d' = d
  · subst here
    rw [Function.update_self, same]
  · rw [Function.update_of_ne here]

theorem trigger_of_isEmpty [DecidableEq ε] {ev : ε} (dead : io.isEmpty ev = true)
    (events : List ε) : (io.trigger events).isEmpty ev = true := by
  simp only [trigger, dead, Bool.true_or]

theorem trigger_nil [DecidableEq ε] (io : Io δ β ε) : io.trigger [] = io := by
  simp [trigger]

/-! ## Giving up -/

section Notices

variable [DecidableEq δ]

/-- Only what a driver has still to do changes. -/
theorem calls_of_update (d : δ) {call : IoCall δ β}
    (same : call.front = (io.call d).front ∧ call.joins = (io.call d).joins) (d' : δ) :
    (Function.update io.call d call d').front = (io.call d').front ∧
      (Function.update io.call d call d').joins = (io.call d').joins := by
  by_cases here : d' = d
  · subst here
    rw [Function.update_self]
    exact same
  · rw [Function.update_of_ne here]
    exact ⟨rfl, rfl⟩

/-- The notification that a driver handles is the only one that goes. -/
theorem mem_todo_update {d : δ} {baseFd : BitVec 32} {rest : List (δ × BitVec 32)}
    (first : (io.call d).todo = (d, baseFd) :: rest) {call : IoCall δ β} (left : call.todo = rest)
    {d' d'' : δ} {message : BitVec 32} (waits : (d', message) ∈ (io.call d'').todo)
    (other : ¬(d' = d ∧ message = baseFd)) :
    (d', message) ∈ (Function.update io.call d call d'').todo := by
  by_cases here : d'' = d
  · subst here
    rw [first] at waits
    rw [Function.update_self, left]
    exact (List.mem_cons.mp waits).resolve_left fun now => other (Prod.mk.inj now)
  · rw [Function.update_of_ne here]
    exact waits

variable [Fintype δ] [DecidableEq β]

/-- A driver that listens is sent the number of a descriptor. -/
theorem Safe.migrateFdClose (safe : io.Safe steps) {d dx : δ} {baseFd : BitVec 32}
    {rest : List (δ × BitVec 32)} (first : (io.call d).todo = (dx, baseFd) :: rest) :
    ((io.setCall d { io.call d with todo := rest }).migrateFdClose dx baseFd).Safe (steps + 1) := by
  obtain ⟨fault, registry, sound, told, fresh⟩ := safe
  have mine := sound.driver dx
  obtain ⟨driver, sent⟩ : ∃ driver : IoDriver β ε, driver = { io.driver dx with
      migrateFdClose := (io.driver dx).migrateFdClose ++ [baseFd] } := ⟨_, rfl⟩
  have ok : DriverSound io.body io.isEmpty (registry dx) driver := by
    rw [sent]
    exact mine.withFds mine.refines rfl rfl rfl
  refine Safe.driverStep fault sound told fresh (show _ = Function.update io.driver dx driver by
    rw [sent]; rfl) rfl rfl rfl (calls_of_update d ⟨rfl, rfl⟩) (fun _ dead => dead)
    (fun _ => rfl) ok (fun d' fd b body _ _ _ pending => ?_) rfl
    (fun _ _ member => Or.inl member) fun _ before => before.same (by rw [sent]) (by rw [sent])
  refine pending.mono (fun message old => Or.inl ?_) fun d'' message waits _ => ?_
  · simp only [Io.migrateFdClose, setDriver]
    by_cases same : d' = dx
    · subst same
      rw [Function.update_self]
      exact List.mem_append_left _ old
    · rw [Function.update_of_ne same]
      exact old
  · by_cases here : d'' = d
    · subst here
      rw [first] at waits
      rcases List.mem_cons.mp waits with now | later
      · obtain ⟨rfl, rfl⟩ := Prod.mk.inj now
        left
        simp only [Io.migrateFdClose, setDriver, Function.update_self]
        exact List.mem_append_right _ (List.mem_singleton_self _)
      · refine Or.inr ⟨d'', ?_⟩
        simp only [Io.migrateFdClose, setDriver, setCall, Function.update_self]
        exact later
    · refine Or.inr ⟨d'', ?_⟩
      simp only [Io.migrateFdClose, setDriver, setCall, Function.update_of_ne here]
      exact waits

/-- A driver takes its messages. -/
theorem Safe.finishMigrate (safe : io.Safe steps) {d : δ} (idle : (io.call d).idle = true) :
    (io.finishMigrate d).Safe (steps + 1) := by
  obtain ⟨fault, registry, sound, told, fresh⟩ := safe
  obtain ⟨-, -, none⟩ := IoCall.of_idle idle
  have mine := sound.driver d
  have ok : DriverSound io.body io.isEmpty (registry d)
      { io.driver d with migrateFdClose := [] } :=
    mine.withFds mine.refines rfl rfl rfl
  refine Safe.driverStep fault sound told fresh rfl rfl rfl rfl (calls_of_update d ⟨rfl, rfl⟩)
    (fun _ dead => dead) (fun _ => rfl) ok (fun d' fd b body _ _ _ pending => ?_) rfl
    (fun _ _ member => Or.inl member) fun _ before => before.same rfl rfl
  refine pending.mono (fun message old => ?_) fun d'' message waits _ => Or.inr ⟨d'', ?_⟩
  · by_cases same : d' = d
    · subst same
      refine Or.inr ⟨d', ?_⟩
      simp only [Io.finishMigrate, setCall, Function.update_self]
      exact List.mem_map.mpr ⟨message, old, rfl⟩
    · left
      simp only [Io.finishMigrate, setCall, setDriver, Function.update_of_ne same]
      exact old
  · by_cases here : d'' = d
    · subst here
      rw [none] at waits
      cases waits
    · simp only [Io.finishMigrate, setCall, Function.update_of_ne here]
      exact waits

variable [DecidableEq ε]

/-- A driver gives the descriptor of a closed body up. -/
theorem Safe.giveUp (fault : io.fault = false) (sound : io.Sound registry)
    (told : io.Told registry) (fresh : steps + 2 < 2 ^ 32 → io.Fresh registry steps) {d : δ}
    {baseFd : BitVec 32} {rest : List (δ × BitVec 32)} (front : (io.call d).front = none)
    (joins : (io.call d).joins = none) (first : (io.call d).todo = (d, baseFd) :: rest) {b : β}
    (owner : Interested registry b d baseFd.toNat) (closed : io.closed b = true) :
    ∃ next, (io.setCall d { io.call d with todo := rest }).notifyClose d baseFd = some next ∧
      next.Safe (steps + 1) := by
  obtain ⟨body, known, place, base, isOpen⟩ := sound.owner_of_watched owner
  have done : body.fd.slt 0 = true := by
    rw [Io.closed, known] at closed
    exact closed
  obtain ⟨left, driver, run, applied, messages, batch, source, ok, interests⟩ :=
    (sound.driver d).giveUp owner closed known isOpen
  obtain ⟨queues, given⟩ : ∃ queues, queues = ((registry d).close io.closed baseFd.toNat).1 :=
    ⟨_, rfl⟩
  rw [← given] at ok interests
  have owners : ∀ b' d' n, Interested (Function.update registry d queues) b' d' n ↔
      Interested registry b' d' n ∧ ¬(d' = d ∧ n = baseFd.toNat) := by
    intro b' d' n
    unfold Interested
    by_cases same : d' = d
    · subst same
      rw [Function.update_self, interests, and_comm]
      simp
    · rw [Function.update_of_ne same]
      simp [same]
  have away : ∀ b', (io.call d).phase b' = .away := IoCall.phase_of_idle front joins
  obtain ⟨next, result⟩ : ∃ next : Io δ β ε, next =
      ((((io.setCall d { io.call d with todo := rest }).setDriver d driver).trigger
        (((registry d).interest baseFd.toNat).watches.map Watch.event)).setFront d
          (some (.removeListener b))) := ⟨_, rfl⟩
  have calls : next.call = Function.update io.call d
      { io.call d with front := some (.removeListener b), todo := rest } := by
    rw [result]
    simp only [setFront, setCall, trigger, setDriver, Function.update_self, Function.update_idem]
  have bodies : next.body = io.body := by
    rw [result]
    rfl
  have drivers : next.driver = Function.update io.driver d driver := by
    rw [result]
    rfl
  have installed : next.installed = io.installed := by
    rw [result]
    rfl
  refine ⟨next, ?_, Safe.tableStep (by rw [result]; exact fault) sound fresh known drivers calls
    bodies (by rw [result]; rfl) (by rw [result]; rfl) (fun ev before => ?_)
    (fun ev f same => installed ▸ same) (by rw [result]; rfl) (fun b' other => ?_)
    (fun any => absurd joins any) (fun baseFd file deletable closes => ?_)
    (by simp [IoCall.Keeps]) ok
    (fun b' other n => ?_) ?_ ?_ fun small before => ?_⟩
  · have sameClosed : ∀ call : IoCall δ β, (io.setCall d call).closed = io.closed := fun _ => rfl
    rw [result]
    simp only [Io.notifyClose, sameClosed]
    simp only [setCall, run, Option.bind_some, applied, Option.map_some]
  · rw [result]
    simp only [setFront, setCall, trigger, setDriver, before, Bool.true_or]
  · rw [away, IoCall.phase_of_front rfl]
    exact if_neg fun equal => other equal.symm
  · rw [front] at closes
    cases closes
  · rw [interests, Interested, and_iff_right_iff_imp]
    rintro interest rfl
    exact other (Option.some.inj (interest.symm.trans owner))
  · rw [IoCall.phase_of_front rfl, IoAccess.phase, if_pos rfl]
    exact (sound.body b body known).giveUp (away b) done owner
      (fun d' n => place.symm ▸ owners b d' n)
  · refine told.step (fun d' n b' body' watches later closed' => ?_)
      fun d' n b' watches pending => ?_
    · rw [bodies] at later
      exact Or.inr ⟨((owners b' d' n).mp watches).1, body', later, closed'⟩
    · have other := ((owners b' d' n).mp watches).2
      refine pending.mono (fun message sent => Or.inl ?_)
        fun d'' message waits number => Or.inr ⟨d'', ?_⟩
      · rw [drivers]
        by_cases same : d' = d
        · subst same
          rw [Function.update_self, messages]
          exact sent
        · rw [Function.update_of_ne same]
          exact sent
      · rw [calls]
        refine mem_todo_update first rfl waits ?_
        rintro ⟨rfl, rfl⟩
        exact other ⟨rfl, number.symm⟩
  · rw [installed, given]
    exact (before.driver d).close small io.closed baseFd.toNat batch source

/-- A driver that has been told gives a closed body up, and nothing else. -/
theorem Safe.notifyClose (safe : io.Safe steps) {d : δ} {baseFd : BitVec 32}
    {rest : List (δ × BitVec 32)} (front : (io.call d).front = none)
    (joins : (io.call d).joins = none) (first : (io.call d).todo = (d, baseFd) :: rest) :
    ∃ next, (io.setCall d { io.call d with todo := rest }).notifyClose d baseFd = some next ∧
      next.Safe (steps + 1) := by
  obtain ⟨fault, registry, sound, told, fresh⟩ := safe
  by_cases gone : ∃ b, Interested registry b d baseFd.toNat ∧ io.closed b = true
  · obtain ⟨b, owner, closed⟩ := gone
    exact Safe.giveUp fault sound told fresh front joins first owner closed
  · have mine := sound.driver d
    obtain ⟨left, run, refines, -⟩ := mine.refines.fdClose io.closed baseFd
    have idle : (registry d).close io.closed baseFd.toNat = (registry d, ⟨none, []⟩) := by
      cases owner : ((registry d).interest baseFd.toNat).body with
      | none => simp only [Registry.close, owner]
      | some b =>
          have stays : ¬io.closed b = true := fun closed => gone ⟨b, owner, closed⟩
          simp only [Registry.close, owner, if_neg stays]
    rw [idle] at run refines
    refine ⟨(io.setCall d { io.call d with todo := rest }).setDriver d
      { io.driver d with fds := left }, ?_, ?_⟩
    · have sameClosed : ∀ call : IoCall δ β, (io.setCall d call).closed = io.closed := fun _ => rfl
      simp only [Io.notifyClose, sameClosed]
      simp only [setCall, run, Option.bind_some]
    · refine Safe.driverStep fault sound told fresh rfl rfl rfl rfl (calls_of_update d ⟨rfl, rfl⟩)
        (fun _ dead => dead) (fun _ => rfl) (mine.withFds refines rfl rfl rfl)
        (fun d' n b body watches known closed pending => ?_) rfl
        (fun _ _ member => Or.inl member) fun _ before => before.same rfl rfl
      refine pending.mono (fun message sent => Or.inl ?_)
        fun d'' message waits number => Or.inr ⟨d'', mem_todo_update first rfl waits ?_⟩
      · rw [setDriver_same IoDriver.migrateFdClose (by rfl) d']
        exact sent
      · -- a message to which nothing answers is not the one that is waited for
        rintro ⟨rfl, rfl⟩
        refine gone ⟨b, number.symm ▸ watches, ?_⟩
        rw [Io.closed, known]
        exact closed

end Notices

/-! ## Watching -/

theorem exists_of_rel {fds : Option (FdEventSet β ε × Watched β ε)} {root : Nat}
    {queues : Registry β ε} {answer : Watched β ε}
    (related : Option.Rel (fun after after' : _ × Watched β ε =>
      FdEventSet.Refines after.1 root after'.1 ∧ after.2 = after'.2) fds (some (queues, answer))) :
    ∃ left, fds = some (left, answer) ∧ left.Refines root queues := by
  cases related with
  | some both =>
      obtain ⟨refines, same⟩ := both
      exact ⟨_, congrArg some (Prod.ext rfl same), refines⟩

theorem body_join (queues : Registry β ε) (fd : Nat) (mask : FdEvent) (b : β) (ev : ε) (n : Nat) :
    ((queues.join fd mask b ev).interest n).body =
      if n = fd then some b else (queues.interest n).body := by
  by_cases same : n = fd
  · subst same
    simp [Registry.join, Registry.set]
  · simp [Registry.join, Registry.set, Registry.note, same]

section Watching

variable [Fintype δ] [DecidableEq β]

/-- A watch on behalf of a body whose number has been loaded is refused, or joins the queue
of its descriptor. -/
theorem Sound.watch (sound : io.Sound registry) {d : δ} {b : β} {body : FdBody δ}
    (known : io.body b = some body) {fd : BitVec 32} (watches : io.phase b d = .watches fd)
    (mask : FdEvent) (ev : ε) :
    (registry d).watch io.closed fd mask b ev = some (registry d, ⟨[], none, none⟩) ∨
      (mask ≠ 0 ∧ fd.slt 0 = false ∧ Interested registry b d fd.toNat ∧
        (registry d).watch io.closed fd mask b ev =
          some ((registry d).join fd.toNat mask b ev, ⟨[], none, none⟩)) ∨
      (mask ≠ 0 ∧ fd.slt 0 = false ∧ ((registry d).interest fd.toNat).body = none ∧
        (registry d).watch io.closed fd mask b ev =
          some ((registry d).join fd.toNat mask b ev, ⟨[], none, some b⟩)) := by
  by_cases refused : fd.slt 0 = true ∨ mask = 0
  · left
    rw [Registry.watch, if_pos refused]
  · right
    simp only [Registry.watch, if_neg refused]
    rw [not_or, Bool.not_eq_true] at refused
    cases owner : ((registry d).interest fd.toNat).body with
    | none => exact Or.inr ⟨refused.2, refused.1, rfl, rfl⟩
    | some other =>
        -- the descriptor still is the one of the body, and belongs to nobody else
        have mine : other = b := by
          obtain ⟨body', known', place, base', isOpen⟩ := sound.owner_of_watched owner
          obtain ⟨same, use⟩ := (sound.body b body known).number d fd watches refused.1
          have base := same ▸ refused.1
          have isOpen' := (sound.owned.held fd.toNat body.file).mpr
            ⟨.inl b, body, known, base, by rw [same], rfl⟩
          have alike := Option.some.inj (isOpen.symm.trans isOpen')
          exact Sum.inl.inj (sound.owned.unique (.inl other) (.inl b) fd.toNat fd.toNat body.file
            ⟨body', known', base', place, alike⟩ ⟨body, known, base, by rw [same], rfl⟩)
        subst mine
        exact Or.inl ⟨refused.2, refused.1, owner, if_pos rfl⟩

variable [DecidableEq δ] [DecidableEq ε]

/-- What a watch leaves, whether the driver is about to join the listeners or not. -/
theorem Safe.watched (fault : io.fault = false) (sound : io.Sound registry)
    (told : io.Told registry) (fresh : steps + 2 < 2 ^ 32 → io.Fresh registry steps) {d : δ}
    {b : β} {body : FdBody δ} (known : io.body b = some body) {fd : BitVec 32} {mask : FdEvent}
    (front : (io.call d).front = some (.watch b fd mask)) {ev : ε} (new : io.installed ev = none)
    {queues : Registry β ε} {left : FdEventSet β ε} {added : Option β}
    (adds : added = none ∨ added = some b)
    (ok : DriverSound io.body io.isEmpty queues { io.driver d with fds := left })
    (others : ∀ b', b' ≠ b → ∀ n, (queues.interest n).body = some b' ↔ Interested registry b' d n)
    (mine : BodySound (Interested (Function.update registry d queues) b)
      (Function.update (io.phase b) d (if added = some b then .joins else .away)) body)
    (isOpen : body.fd.slt 0 = true → ∀ n, (queues.interest n).body = some b →
      Interested registry b d n)
    (kept : steps + 3 < 2 ^ 32 → io.Fresh registry steps → DriverFresh io.body
      (Function.update io.installed ev (some body.file)) queues { io.driver d with fds := left }
        (steps + 1)) :
    Safe { (io.setDriver d { io.driver d with fds := left }).setCall d
      { io.call d with front := none, joins := added } with
      installed := Function.update io.installed ev (some body.file) } (steps + 1) := by
  have later : ∀ b', ({ io.call d with front := none, joins := added } : IoCall δ β).phase b' =
      if added = some b' then .joins else .away :=
    IoCall.phase_of_joins rfl
  refine Safe.tableStep fault sound fresh known rfl rfl rfl rfl rfl (fun _ dead => dead)
    (fun ev' file before => ?_) rfl (fun b' other => ?_) (fun _ => rfl)
    (fun baseFd file deletable closes => ?_) (IoCall.keeps_of_front rfl) ok others
    (by rw [later]; exact mine) ?_ kept
  · refine (Function.update_of_ne ?_ _ _).trans before
    rintro rfl
    rw [new] at before
    cases before
  · rw [later, IoCall.phase_of_front front, if_neg]
    · exact (if_neg other.symm).symm
    · rcases adds with none | some
      · rw [none]
        rintro ⟨⟩
      · rw [some]
        exact fun equal => other (Option.some.inj equal).symm
  · rw [front] at closes
    cases closes
  · refine told.step (fun d' n b' body' watches later' closed => Or.inr ⟨?_, body', later', closed⟩)
      fun d' n b' _ pending => pending.frame ?_ fun d'' => ?_
    · unfold Interested at watches
      by_cases here : d' = d
      · subst here
        rw [Function.update_self] at watches
        by_cases same : b' = b
        · subst same
          obtain rfl := Option.some.inj (known.symm.trans later')
          exact isOpen closed n watches
        · exact (others b' same n).mp watches
      · rwa [Function.update_of_ne here] at watches
    · exact setDriver_same IoDriver.migrateFdClose (by rfl) d'
    · simp only [setCall]
      by_cases same : d'' = d
      · subst same
        rw [Function.update_self]
      · rw [Function.update_of_ne same]
        rfl

/-- The watch of `file_event`. -/
theorem Safe.watch (safe : io.Safe steps) {d : δ} {b : β} {fd : BitVec 32} {mask : FdEvent}
    (front : (io.call d).front = some (.watch b fd mask)) {ev : ε} (new : io.installed ev = none) :
    ∃ next, io.watch d b fd mask ev = some next ∧ next.Safe (steps + 1) := by
  obtain ⟨fault, registry, sound, told, fresh⟩ := safe
  have phases : ∀ b', (io.call d).phase b' = if b = b' then .watches fd else .away :=
    IoCall.phase_of_front front
  have watches : io.phase b d = .watches fd := (phases b).trans (if_pos rfl)
  obtain ⟨body, known⟩ := sound.involved d b (by rw [watches]; rintro ⟨⟩)
  have ok := sound.body b body known
  have mine := sound.driver d
  have related := mine.refines.watch io.closed fd mask b ev
  have grows : ∀ ev' file, io.installed ev' = some file →
      Function.update io.installed ev (some body.file) ev' = some file := by
    intro ev' file before
    refine (Function.update_of_ne ?_ _ _).trans before
    rintro rfl
    rw [new] at before
    cases before
  have noted := fun before : io.Fresh registry steps =>
    (before.driver d).mono (fun _ _ body _ known => ⟨body, known, rfl⟩) grows le_rfl
  obtain ⟨queues, theirs⟩ : ∃ queues, queues = (registry d).join fd.toNat mask b ev := ⟨_, rfl⟩
  have joined : ∀ b' n, (queues.interest n).body = some b' ↔
      if n = fd.toNat then b' = b else Interested registry b' d n := by
    intro b' n
    rw [theirs, body_join]
    split
    · rw [Option.some.injEq, eq_comm]
    · rfl
  simp only [Io.watch, known, Option.bind_some]
  rcases sound.watch known watches mask ev with refused | ⟨asks, positive, owner, done⟩ |
    ⟨asks, positive, vacant, done⟩
  · rw [refused] at related
    obtain ⟨left, run, refines⟩ := exists_of_rel related
    simp only [run, Option.map_some, trigger_nil, Option.map_none]
    refine ⟨_, rfl, Safe.watched fault sound told fresh known front new (Or.inl rfl)
      (mine.withFds refines rfl rfl rfl) (fun _ _ _ => Iff.rfl) ?_ (fun _ _ interest => interest)
      fun _ before => ((noted before).mono (fun _ _ body _ known => ⟨body, known, rfl⟩)
        (fun _ _ same => same) (Nat.le_succ steps)).same rfl rfl⟩
    rw [Function.update_eq_self]
    exact ok.watch watches
  · rw [done, ← theirs] at related
    obtain ⟨left, run, refines⟩ := exists_of_rel related
    simp only [run, Option.map_some, trigger_nil, Option.map_none]
    have still : ∀ b' n, (queues.interest n).body = some b' ↔ Interested registry b' d n := by
      intro b' n
      rw [joined]
      split
      · rename_i here
        rw [here, Interested, show _ = some b from owner, Option.some.injEq, eq_comm]
      · rfl
    refine ⟨_, rfl, Safe.watched fault sound told fresh known front new (Or.inl rfl) ?_
      (fun b' _ n => still b' n) ?_ (fun _ n => (still b n).mp) fun _ before => ?_⟩
    · rw [theirs] at refines ⊢
      exact mine.join (Or.inr owner) asks refines
    · have same : Interested (Function.update registry d queues) b = Interested registry b := by
        funext d' n
        unfold Interested
        by_cases here : d' = d
        · subst here
          rw [Function.update_self, eq_iff_iff]
          exact still b n
        · rw [Function.update_of_ne here]
      rw [same]
      exact ok.watch watches
    · rw [theirs]
      exact (noted before).join (Or.inr owner) known mask (Function.update_self _ _ _) rfl rfl
  · rw [done, ← theirs] at related
    obtain ⟨left, run, refines⟩ := exists_of_rel related
    simp only [run, Option.map_some, trigger_nil, Option.map_none]
    have unwatched : ∀ n, ¬Interested registry b d n := by
      intro n interest
      have place := ok.place d n interest
      rw [← (ok.number d fd watches positive).1] at place
      rw [Interested, ← place, vacant] at interest
      cases interest
    have fresh' : body.fd.slt 0 = false := by
      refine (ok.number d fd watches positive).2.resolve_right fun listens => ?_
      rw [ok.listens, watches] at listens
      simp [unwatched] at listens
    have driver : DriverSound io.body io.isEmpty queues { io.driver d with fds := left } := by
      rw [theirs] at refines ⊢
      exact mine.join (Or.inl vacant) asks refines
    refine ⟨_, rfl, Safe.watched fault sound told fresh known front new (Or.inr rfl) driver
      (fun b' other n => ?_) ?_ (fun closed => ?_) fun _ before => ?_⟩
    · rw [joined]
      split
      · rename_i here
        rw [here, Interested, vacant]
        exact iff_of_false other (by simp)
      · rfl
    · rw [if_pos rfl]
      refine ok.join watches positive unwatched fun d' n => ?_
      rw [Interested]
      by_cases here : d' = d
      · subst here
        rw [Function.update_self, joined]
        by_cases number : n = fd.toNat
        · simp [number]
        · simp [number]
      · rw [Function.update_of_ne here]
        simp [here, Interested]
    · rw [fresh'] at closed
      cases closed
    · rw [theirs]
      exact (noted before).join (Or.inl vacant) known mask (Function.update_self _ _ _) rfl rfl

end Watching

end Io

end DoomDraft.Cotamer
