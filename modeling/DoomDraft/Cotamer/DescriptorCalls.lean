import DoomDraft.Cotamer.DescriptorOwners

/-!
# Calls in progress

`deref`, `close` and `file_event` proceed access by access, and other drivers come in
between.  No access that is not overtaken faults, and each leaves everything sound: the
last driver that gives a closed descriptor up closes it, and the last one that has to do
with a body deletes it.
-/

namespace DoomDraft.Cotamer

open FdEventSet

universe u v w

variable {δ : Type w} {β : Type u} {ε : Type v}

namespace IoCall

theorem of_idle {call : IoCall δ β} (idle : call.idle = true) :
    call.front = none ∧ call.joins = none ∧ call.todo = [] := by
  simpa [IoCall.idle, and_assoc] using idle

variable [DecidableEq β]

theorem phase_of_front {call : IoCall δ β} {front : IoAccess β} (here : call.front = some front)
    (b : β) : call.phase b = front.phase b := by
  rw [phase, here]

theorem phase_of_joins {call : IoCall δ β} (here : call.front = none) (b : β) :
    call.phase b = if call.joins = some b then .joins else .away := by
  rw [phase, here]

theorem phase_of_idle {call : IoCall δ β} (front : call.front = none) (joins : call.joins = none)
    (b : β) : call.phase b = .away := by
  rw [phase_of_joins front, joins, if_neg (by simp)]

end IoCall

/-- A driver that is not about to close a descriptor. -/
def IoCall.Keeps (call : IoCall δ β) : Prop :=
  ∀ baseFd file deletable, call.front ≠ some (.osClose baseFd file deletable)

theorem IoCall.keeps_of_front {call : IoCall δ β} (none : call.front = none) : call.Keeps := by
  intro baseFd file deletable front
  rw [none] at front
  cases front

namespace Io

variable {io next : Io δ β ε} {registry : δ → Registry β ε} {steps : Nat}

/-- What holds after so many steps of a run. -/
def Safe [Fintype δ] [DecidableEq β] (io : Io δ β ε) (steps : Nat) : Prop :=
  io.fault = false ∧ ∃ registry, io.Sound registry ∧ io.Told registry ∧
    (steps + 2 < 2 ^ 32 → io.Fresh registry steps)

theorem not_holds_of_keeps {d : δ} (keeps : (io.call d).Keeps) (fd file : Nat) :
    ¬io.Holds (.inr d) fd file := by
  rintro ⟨baseFd, deletable, front, -⟩
  exact keeps baseFd file deletable front

variable [DecidableEq δ] [DecidableEq β]

theorem phase_of_call {d : δ} {call : IoCall δ β}
    (calls : next.call = Function.update io.call d call) (b : β) :
    next.phase b = Function.update (io.phase b) d (call.phase b) := by
  funext d'
  simp only [phase, calls]
  by_cases same : d' = d
  · subst same
    rw [Function.update_self, Function.update_self]
  · rw [Function.update_of_ne same, Function.update_of_ne same, phase]

theorem phase_eq_of_call {d : δ} {call : IoCall δ β}
    (calls : next.call = Function.update io.call d call) {b : β}
    (same : call.phase b = (io.call d).phase b) : next.phase b = io.phase b := by
  rw [phase_of_call calls, same]
  exact Function.update_eq_self d (io.phase b)

omit [DecidableEq δ] in
theorem setBody_self {b : β} {body : FdBody δ} (known : io.body b = some body) :
    io.setBody b (some body) = io := by
  rw [setBody, ← known, Function.update_eq_self]

section Holds

variable {b : β} {d : δ} {left : Option (FdBody δ)} {call : IoCall δ β}

/-- Only what a body and the call of a driver become matters. -/
theorem holds_access_of_ne {who : β ⊕ δ} (body : who ≠ .inl b) (driver : who ≠ .inr d)
    (fd file : Nat) :
    ((io.setBody b left).setCall d call).Holds who fd file ↔ io.Holds who fd file := by
  cases who with
  | inl b' =>
      have other : b' ≠ b := fun same => body (congrArg _ same)
      simp only [Holds, setBody, setCall, Function.update_of_ne other]
  | inr d' =>
      have other : d' ≠ d := fun same => driver (congrArg _ same)
      simp only [Holds, setBody, setCall, Function.update_of_ne other]

theorem holds_access_body (fd file : Nat) :
    ((io.setBody b left).setCall d call).Holds (.inl b) fd file ↔ ∃ body, left = some body ∧
      body.baseFd.slt 0 = false ∧ body.baseFd.toNat = fd ∧ body.file = file := by
  simp only [Holds, setBody, setCall, Function.update_self]

theorem holds_access_driver (fd file : Nat) :
    ((io.setBody b left).setCall d call).Holds (.inr d) fd file ↔ ∃ baseFd deletable,
      call.front = some (.osClose baseFd file deletable) ∧ baseFd.toNat = fd := by
  simp only [Holds, setBody, setCall, Function.update_self]

/-- A body keeps its descriptor. -/
theorem holds_access_of_keeps {body : FdBody δ} (known : io.body b = some body)
    (before : (io.call d).Keeps) (keeps : call.Keeps)
    (same : ∀ fd file, (∃ changed, left = some changed ∧ changed.baseFd.slt 0 = false ∧
        changed.baseFd.toNat = fd ∧ changed.file = file) ↔
      body.baseFd.slt 0 = false ∧ body.baseFd.toNat = fd ∧ body.file = file)
    (who : β ⊕ δ) (fd file : Nat) :
    ((io.setBody b left).setCall d call).Holds who fd file ↔
      io.Holds (Equiv.refl _ who) fd file := by
  rw [Equiv.refl_apply]
  by_cases body : who = .inl b
  · subst body
    rw [holds_access_body, same]
    simp only [Holds, known, Option.some.injEq, exists_eq_left']
  · by_cases driver : who = .inr d
    · subst driver
      rw [holds_access_driver]
      refine iff_of_false ?_ (not_holds_of_keeps before fd file)
      rintro ⟨baseFd, deletable, front, -⟩
      exact keeps baseFd file deletable front
    · exact holds_access_of_ne body driver fd file

/-- A body hands its descriptor over to a driver. -/
theorem holds_access_of_hands {body : FdBody δ} (known : io.body b = some body)
    (based : body.baseFd.slt 0 = false) (before : (io.call d).Keeps)
    {deletable : Option β} (front : call.front = some (.osClose body.baseFd body.file deletable))
    (gone : ∀ changed, left = some changed → changed.baseFd.slt 0 = true)
    (who : β ⊕ δ) (fd file : Nat) :
    ((io.setBody b left).setCall d call).Holds who fd file ↔
      io.Holds (Equiv.swap (.inl b) (.inr d) who) fd file := by
  by_cases isBody : who = .inl b
  · subst isBody
    rw [Equiv.swap_apply_left, holds_access_body]
    refine iff_of_false ?_ (not_holds_of_keeps before fd file)
    rintro ⟨changed, kept, positive, -⟩
    rw [gone changed kept] at positive
    cases positive
  · by_cases isDriver : who = .inr d
    · subst isDriver
      rw [Equiv.swap_apply_right, holds_access_driver, front]
      simp only [Holds, known, Option.some.injEq, exists_eq_left', based, true_and,
        IoAccess.osClose.injEq]
      constructor
      · rintro ⟨baseFd, deletable', ⟨rfl, rfl, -⟩, number⟩
        exact ⟨number, rfl⟩
      · rintro ⟨number, same⟩
        exact ⟨_, _, ⟨rfl, same, rfl⟩, number⟩
    · rw [Equiv.swap_apply_of_ne_of_ne isBody isDriver]
      exact holds_access_of_ne isBody isDriver fd file

end Holds

variable [Fintype δ]

/-- A driver does something to a body, and goes on in its call. -/
theorem Safe.access (fault : io.fault = false) (sound : io.Sound registry)
    (told : io.Told registry) (fresh : steps + 2 < 2 ^ 32 → io.Fresh registry steps)
    {b : β} {d : δ} {body : FdBody δ} (known : io.body b = some body)
    {left : Option (FdBody δ)} {call : IoCall δ β}
    (elsewhere : ∀ b', b' ≠ b → call.phase b' = (io.call d).phase b')
    (alone : call.joins ≠ none → call.front = none) (todo : (io.call d).todo ⊆ call.todo)
    (mine : ∀ changed, left = some changed → changed.file = body.file ∧
      BodySound (Interested registry b) (Function.update (io.phase b) d (call.phase b)) changed ∧
      (changed.fd.slt 0 = true → body.fd.slt 0 = true ∨ ∀ d' fd, Interested registry b d' fd →
        ∃ message, (d', message) ∈ call.todo ∧ message.toNat = fd))
    (gone : left = none → (∀ d' fd, ¬Interested registry b d' fd) ∧
      ∀ d', Function.update (io.phase b) d (call.phase b) d' = .away)
    (hands : Equiv.Perm (β ⊕ δ))
    (holds : ∀ who fd file, ((io.setBody b left).setCall d call).Holds who fd file ↔
      io.Holds (hands who) fd file) :
    ((io.setBody b left).setCall d call).Safe (steps + 1) := by
  have calls : ((io.setBody b left).setCall d call).call = Function.update io.call d call := rfl
  have sameFile : ∀ b' body' changed, io.body b' = some body' →
      ((io.setBody b left).setCall d call).body b' = some changed →
        changed.file = body'.file := by
    intro b' body' changed before later
    simp only [setBody, setCall] at later
    by_cases same : b' = b
    · subst same
      rw [Function.update_self] at later
      obtain rfl := Option.some.inj (known.symm.trans before)
      exact (mine changed later).1
    · rw [Function.update_of_ne same, before] at later
      rw [Option.some.inj later]
  have sound' : ((io.setBody b left).setCall d call).Sound registry := by
    refine sound.step sound.driver sameFile (fun b' => ?_)
      (sound.owned.permute rfl rfl hands holds) (fun d' => ?_)
    · by_cases same : b' = b
      · subst same
        right
        rw [phase_of_call calls]
        simp only [setBody, setCall, Function.update_self]
        exact ⟨fun changed kept => (mine changed kept).2.1, gone⟩
      · left
        exact ⟨Function.update_of_ne same _ _, rfl, phase_eq_of_call calls (elsewhere b' same)⟩
    · rw [calls]
      by_cases same : d' = d
      · subst same
        rw [Function.update_self]
        exact alone
      · rw [Function.update_of_ne same]
        exact sound.alone d'
  refine ⟨fault, registry, sound', ?_, fun small => ?_⟩
  · refine told.step (fun d' fd b' changed watches later closed => ?_)
      (fun d' fd b' _ pending => ?_)
    · simp only [setBody, setCall] at later
      by_cases same : b' = b
      · subst same
        rw [Function.update_self] at later
        rcases (mine changed later).2.2 closed with before | notified
        · exact Or.inr ⟨watches, body, known, before⟩
        · obtain ⟨message, waits, number⟩ := notified d' fd watches
          refine Or.inl (Or.inr ⟨d, message, ?_, number⟩)
          rw [calls, Function.update_self]
          exact waits
      · rw [Function.update_of_ne same] at later
        exact Or.inr ⟨watches, changed, later, closed⟩
    · refine pending.mono (fun message sent => Or.inl sent) fun d'' message waits _ => Or.inr ?_
      refine ⟨d'', ?_⟩
      rw [calls]
      by_cases same : d'' = d
      · subst same
        rw [Function.update_self]
        exact todo waits
      · rw [Function.update_of_ne same]
        exact waits
  · have before := fresh (by omega)
    exact before.step sound' sameFile (fun d' => before.same rfl rfl) (fun _ _ same => same)
      (fun _ _ member => Or.inl member)

omit [DecidableEq δ] in
theorem Sound.joins_of_front (sound : io.Sound registry) {d : δ} {front : IoAccess β}
    (here : (io.call d).front = some front) : (io.call d).joins = none := by
  by_contra any
  rw [sound.alone d any] at here
  cases here

/-- A call begins with an access that changes nothing. -/
theorem Safe.begin (safe : io.Safe steps) {d : δ} (idle : (io.call d).idle = true) {b : β}
    {body : FdBody δ} (known : io.body b = some body) {front : IoAccess β}
    (elsewhere : ∀ b', b' ≠ b → front.phase b' = .away)
    (keeps : ∀ baseFd file deletable, front ≠ .osClose baseFd file deletable)
    (mine : ∀ watched, BodySound watched (io.phase b) body →
      BodySound watched (Function.update (io.phase b) d (front.phase b)) body) :
    (io.setFront d (some front)).Safe (steps + 1) := by
  obtain ⟨fault, registry, sound, told, fresh⟩ := safe
  obtain ⟨noFront, noJoins, -⟩ := IoCall.of_idle idle
  have shape : io.setFront d (some front) = (io.setBody b (some body)).setCall d
      { io.call d with front := some front } := by
    rw [setBody_self known, setFront]
  rw [shape]
  refine Safe.access fault sound told fresh known (fun b' other => ?_)
    (fun joins => absurd noJoins joins) (List.Subset.refl _) ?_ (by simp) (Equiv.refl _)
    (holds_access_of_keeps known ?_ ?_ (fun fd file => by simp))
  · rw [IoCall.phase_of_idle noFront noJoins]
    exact elsewhere b' other
  · rintro changed ⟨⟩
    exact ⟨rfl, mine _ (sound.body b body known), Or.inl⟩
  · intro baseFd file deletable closes
    rw [noFront] at closes
    cases closes
  · intro baseFd file deletable closes
    exact keeps baseFd file deletable (Option.some.inj closes)

/-- The load of `deref`. -/
theorem Safe.deref (safe : io.Safe steps) {d : δ} (idle : (io.call d).idle = true) {b : β}
    {body : FdBody δ} (known : io.body b = some body)
    (droppable : engaged (io.phase b) < body.ref) :
    ∃ next, io.deref d b = some next ∧ next.Safe (steps + 1) := by
  obtain ⟨noFront, noJoins, -⟩ := IoCall.of_idle idle
  refine ⟨_, by rw [Io.deref, known, Option.map_some], safe.begin idle known (fun b' other => ?_)
    (fun baseFd file deletable => ?_) fun watched ok => ?_⟩
  · split <;> exact if_neg other.symm
  · split <;> simp
  · have step := ok.deref (IoCall.phase_of_idle noFront noJoins b) droppable
    split at step
    · rename_i one
      rw [if_pos one, IoAccess.phase, if_pos rfl]
      exact step
    · rename_i several
      rw [if_neg several, IoAccess.phase, if_pos rfl]
      exact step

/-- The load of `file_event`. -/
theorem Safe.fileEvent (safe : io.Safe steps) {d : δ} (idle : (io.call d).idle = true) {b : β}
    {body : FdBody δ} (known : io.body b = some body)
    (held : (droppers (io.phase b)).card < body.ref) (mask : FdEvent) :
    ∃ next, io.fileEvent d b mask = some next ∧ next.Safe (steps + 1) := by
  obtain ⟨noFront, noJoins, -⟩ := IoCall.of_idle idle
  refine ⟨io.setFront d (some (.watch b body.fd mask)),
    by rw [Io.fileEvent, known, Option.map_some], safe.begin idle known
      (fun b' other => if_neg other.symm) (by simp) fun watched ok => ?_⟩
  rw [IoAccess.phase, if_pos rfl]
  exact ok.load (IoCall.phase_of_idle noFront noJoins b) held

/-- The `fetch_sub` of `deref`. -/
theorem Safe.release (safe : io.Safe steps) {d : δ} {b : β}
    (front : (io.call d).front = some (.release b)) {body : FdBody δ}
    (known : io.body b = some body) (others : body.ref ≠ 1) :
    ∃ next, io.release d b = some next ∧ next.Safe (steps + 1) := by
  obtain ⟨fault, registry, sound, told, fresh⟩ := safe
  have noJoins := sound.joins_of_front front
  have phases : ∀ b', (io.call d).phase b' = if b = b' then .releases else .away :=
    IoCall.phase_of_front front
  have later : ∀ b', ({ io.call d with front := none } : IoCall δ β).phase b' = .away :=
    IoCall.phase_of_idle rfl noJoins
  refine ⟨_, by rw [Io.release, known, Option.map_some], ?_⟩
  refine Safe.access fault sound told fresh known (fun b' other => ?_) (fun _ => rfl)
    (List.Subset.refl _) ?_ (by simp) (Equiv.refl _)
    (holds_access_of_keeps known ?_ (IoCall.keeps_of_front rfl) (fun fd file => by simp))
  · rw [phases, if_neg other.symm]
    exact later b'
  · rintro changed ⟨⟩
    refine ⟨rfl, ?_, Or.inl⟩
    have step := (sound.body b body known).release ((phases b).trans (if_pos rfl)) others
    rw [← later b] at step
    exact step
  · intro baseFd file deletable closes
    rw [front] at closes
    cases closes

/-- `add_listener`. -/
theorem Safe.addListener (safe : io.Safe steps) {d : δ} {b : β}
    (front : (io.call d).front = none) (joins : (io.call d).joins = some b) :
    ∃ next, io.addListener d b = some next ∧ next.Safe (steps + 1) := by
  obtain ⟨fault, registry, sound, told, fresh⟩ := safe
  have phases : ∀ b', (io.call d).phase b' = if b = b' then .joins else .away := by
    intro b'
    rw [IoCall.phase_of_joins front, joins]
    simp only [Option.some.injEq]
  have mine : io.phase b d = .joins := (phases b).trans (if_pos rfl)
  obtain ⟨body, known⟩ := sound.involved d b (by rw [mine]; rintro ⟨⟩)
  have later : ∀ b', ({ io.call d with joins := none } : IoCall δ β).phase b' = .away :=
    IoCall.phase_of_idle front rfl
  have keeps : ∀ baseFd file deletable,
      (io.call d).front ≠ some (.osClose baseFd file deletable) := by
    intro baseFd file deletable closes
    rw [front] at closes
    cases closes
  refine ⟨_, by rw [Io.addListener, known, Option.map_some], ?_⟩
  refine Safe.access fault sound told fresh known (fun b' other => ?_)
    (fun joins => absurd rfl joins) (List.Subset.refl _) ?_ (by simp) (Equiv.refl _)
    (holds_access_of_keeps known keeps keeps (fun fd file => by simp))
  · rw [phases, if_neg other.symm]
    exact later b'
  · rintro changed ⟨⟩
    refine ⟨rfl, ?_, Or.inl⟩
    have step := (sound.body b body known).addListener mine
    rw [← later b] at step
    exact step

/-- What the locked part of `close` leaves, wherever the call goes on. -/
theorem Safe.shut (fault : io.fault = false) (sound : io.Sound registry)
    (told : io.Told registry) (fresh : steps + 2 < 2 ^ 32 → io.Fresh registry steps)
    {b : β} {d : δ} {body : FdBody δ} (known : io.body b = some body) {becauseDeref : Bool}
    (who : if becauseDeref then io.phase b d = .closes
      else io.phase b d = .away ∧ (droppers (io.phase b)).card < body.ref)
    (settled : body.fd.slt 0 = false → ∀ d', (io.phase b d').borrows = true → d' ∈ body.drivers)
    (elsewhere : ∀ b', b' ≠ b → (io.call d).phase b' = .away) {call : IoCall δ β}
    (phases : ∀ b', call.phase b' =
      if b = b' ∧ becauseDeref = true ∧ body.drivers = [] then .deletes else .away)
    (joins : call.joins = none) (todo : (io.call d).todo ⊆ call.todo)
    (notified : body.fd.slt 0 = false → ∀ d' ∈ body.drivers, (d', body.baseFd) ∈ call.todo)
    {fd baseFd : BitVec 32} (closed : fd.slt 0 = true)
    (base : baseFd = if body.fd.slt 0 = false ∧ body.drivers = [] then -1 else body.baseFd)
    {left : FdBody δ} (leaves : left = { body with
      fd := fd, baseFd := baseFd, ref := if becauseDeref then body.ref - 1 else body.ref })
    (hands : Equiv.Perm (β ⊕ δ))
    (holds : ∀ who fd file, ((io.setBody b (some left)).setCall d call).Holds who fd file ↔
      io.Holds (hands who) fd file) :
    ((io.setBody b (some left)).setCall d call).Safe (steps + 1) := by
  have ok := sound.body b body known
  refine Safe.access fault sound told fresh known (fun b' other => ?_)
    (fun any => absurd joins any) todo ?_ (by simp) hands holds
  · rw [elsewhere b' other, phases, if_neg fun both => other both.1.symm]
  · rintro changed ⟨⟩
    refine ⟨by rw [leaves], ?_, fun _ => ?_⟩
    · rw [leaves, phases]
      simp only [true_and]
      exact ok.close who settled closed base
    · by_cases before : body.fd.slt 0 = true
      · exact Or.inl before
      · refine Or.inr fun d' n watches => ⟨body.baseFd, ?_, ok.place d' n watches⟩
        have isOpen : body.fd.slt 0 = false := by simpa using before
        apply notified isOpen d'
        rw [ok.listens]
        refine Or.inl ⟨⟨n, watches⟩, fun joins => ?_⟩
        exact ok.notMem_of_joins joins (settled isOpen d' (by rw [joins]; rfl))

/-- The locked part of `close`, on behalf of a caller or of `deref`. -/
theorem Safe.close (safe : io.Safe steps) {d : δ} {b : β} {body : FdBody δ}
    (known : io.body b = some body) {becauseDeref : Bool}
    (who : if becauseDeref then (io.call d).front = some (.close b)
      else (io.call d).idle = true ∧ (droppers (io.phase b)).card < body.ref)
    (settled : becauseDeref = false → body.fd.slt 0 = false →
      ∀ d', (io.phase b d').borrows = true → d' ∈ body.drivers) :
    ∃ next, io.close d b becauseDeref = some next ∧ next.Safe (steps + 1) := by
  obtain ⟨fault, registry, sound, told, fresh⟩ := safe
  have ok := sound.body b body known
  have begun : (io.call d).joins = none ∧
      (∀ b', (io.call d).phase b' = if b = b' ∧ becauseDeref = true then .closes else .away) ∧
      (io.call d).Keeps := by
    cases becauseDeref with
    | false =>
        obtain ⟨front, joins, -⟩ := IoCall.of_idle (show (io.call d).idle = true ∧ _ from who).1
        refine ⟨joins, fun b' => ?_, fun baseFd file deletable closes => ?_⟩
        · rw [IoCall.phase_of_idle front joins, if_neg (by simp)]
        · rw [front] at closes
          cases closes
    | true =>
        have front : (io.call d).front = some (.close b) := who
        refine ⟨sound.joins_of_front front, fun b' => ?_, fun baseFd file deletable closes => ?_⟩
        · rw [IoCall.phase_of_front front, IoAccess.phase]
          simp only [and_true]
        · rw [front] at closes
          cases closes
  obtain ⟨joins, phases, keeps⟩ := begun
  have before : if becauseDeref then io.phase b d = .closes
      else io.phase b d = .away ∧ (droppers (io.phase b)).card < body.ref := by
    have mine := phases b
    cases becauseDeref with
    | false => exact ⟨mine.trans (if_neg (by simp)), (show _ ∧ _ from who).2⟩
    | true => exact mine.trans (if_pos ⟨rfl, rfl⟩)
  have borrowers : body.fd.slt 0 = false →
      ∀ d', (io.phase b d').borrows = true → d' ∈ body.drivers := by
    cases becauseDeref with
    | false => exact settled rfl
    | true => exact fun _ d' borrows => absurd borrows (ok.not_borrows_of_closes before d')
  have elsewhere : ∀ b', b' ≠ b → (io.call d).phase b' = .away := fun b' other => by
    rw [phases, if_neg fun both => other both.1.symm]
  have negative : (-1 : BitVec 32).slt 0 = true := rfl
  refine ⟨_, by rw [Io.close, known, Option.map_some], ?_⟩
  by_cases closed : body.fd.slt 0 = true
  · -- the body has been closed before, and only its deletion may be left
    simp only [closed, Bool.not_true, Bool.false_eq_true, if_false, negative, Bool.false_and,
      if_true, List.nil_append]
    refine Safe.shut fault sound told fresh known before borrowers elsewhere (fun b' => ?_)
      (by exact joins) ?_ (fun isOpen => ?_) closed ?_ rfl (Equiv.refl _) ?_
    · by_cases last : becauseDeref = true ∧ body.drivers = []
      · simp [IoCall.phase, IoAccess.phase, last.1, last.2]
      · have none : (becauseDeref && body.drivers.isEmpty) = false := by
          rw [← Bool.not_eq_true, Bool.and_eq_true, List.isEmpty_iff]
          exact last
        rw [none, if_neg Bool.false_ne_true, if_neg fun both : b = b' ∧ _ => last both.2]
        exact IoCall.phase_of_idle rfl (by exact joins) b'
    · exact List.Subset.refl _
    · rw [closed] at isOpen
      cases isOpen
    · rw [if_neg]
      rw [closed]
      simp
    · refine holds_access_of_keeps known keeps (fun baseFd file deletable => ?_) fun fd file => ?_
      · split <;> simp
      · simp
  · have positive : body.fd.slt 0 = false := by simpa using closed
    have base := ok.based_of_open positive
    simp only [positive, Bool.not_false, if_true, base, Bool.true_and, Bool.false_eq_true, if_false,
      List.isEmpty_iff]
    by_cases nobody : body.drivers = []
    · -- nobody listens: the driver is about to close the descriptor
      simp only [nobody, List.isEmpty_nil, if_true, Bool.and_true, List.map_nil, List.nil_append]
      refine Safe.shut fault sound told fresh known before borrowers elsewhere (fun b' => ?_)
        (by exact joins) ?_ (fun _ => ?_) negative ?_ (by rw [nobody])
        (Equiv.swap (.inl b) (.inr d)) ?_
      · rw [nobody]
        cases becauseDeref <;> simp [IoCall.phase, IoAccess.phase]
      · exact List.Subset.refl _
      · rw [nobody]
        simp
      · rw [if_pos ⟨positive, nobody⟩]
      · refine holds_access_of_hands known base keeps rfl ?_
        rintro changed ⟨⟩
        exact negative
    · -- every listener is about to be told
      have any : body.drivers.isEmpty = false := by simpa using nobody
      simp only [nobody, if_false, any, Bool.and_false, Bool.false_eq_true, Option.map_none]
      refine Safe.shut fault sound told fresh known before borrowers elsewhere (fun b' => ?_)
        (by exact joins) ?_ (fun _ d' listens => ?_) negative ?_ rfl (Equiv.refl _) ?_
      · rw [if_neg fun both : b = b' ∧ _ ∧ _ => nobody both.2.2]
        exact IoCall.phase_of_idle rfl (by exact joins) b'
      · exact List.subset_append_right _ _
      · exact List.mem_append_left _ (List.mem_map.mpr ⟨d', listens, rfl⟩)
      · rw [if_neg fun both => nobody both.2]
      · exact holds_access_of_keeps known keeps (IoCall.keeps_of_front rfl) fun fd file => by simp

/-- `remove_listener`, by a driver that has given the descriptor of a closed body up. -/
theorem Safe.removeListener (safe : io.Safe steps) {d : δ} {b : β}
    (front : (io.call d).front = some (.removeListener b)) :
    ∃ next, io.removeListener d b = some next ∧ next.Safe (steps + 1) := by
  obtain ⟨fault, registry, sound, told, fresh⟩ := safe
  have joins := sound.joins_of_front front
  have phases : ∀ b', (io.call d).phase b' = if b = b' then .leaves else .away :=
    IoCall.phase_of_front front
  have leaves : io.phase b d = .leaves := (phases b).trans (if_pos rfl)
  obtain ⟨body, known⟩ := sound.involved d b (by rw [leaves]; rintro ⟨⟩)
  have ok := sound.body b body known
  have closed := (ok.leaving d leaves).1
  have base := ok.based ((ok.listens d).mpr (Or.inr leaves))
  have keeps : (io.call d).Keeps := by
    intro baseFd file deletable closes
    rw [front] at closes
    cases closes
  refine ⟨_, by rw [Io.removeListener, known, Option.map_some], ?_⟩
  by_cases nobody : swapRemove d body.drivers = []
  · -- the last driver closes the descriptor, and deletes the body if nobody refers to it
    have step := ok.removeListener leaves rfl (if_pos nobody).symm
    simp only [nobody, ne_eq, not_true_eq_false, if_false, closed, if_true, base,
      Bool.false_eq_true, true_and] at step ⊢
    refine Safe.access fault sound told fresh known (fun b' other => ?_)
      (fun any => absurd joins any) (List.Subset.refl _) ?_ (by simp) (Equiv.swap (.inl b) (.inr d))
      (holds_access_of_hands known base keeps rfl ?_)
    · rw [phases, if_neg other.symm]
      split <;> simp [IoCall.phase, IoAccess.phase, other.symm]
    · rintro changed ⟨⟩
      refine ⟨rfl, ?_, fun _ => Or.inl closed⟩
      by_cases last : body.ref = 0
      · simpa [IoCall.phase, IoAccess.phase, last] using step
      · simpa [IoCall.phase, IoAccess.phase, last] using step
    · rintro changed ⟨⟩
      rfl
  · have step := ok.removeListener leaves rfl (if_neg nobody).symm
    rw [if_neg fun both : _ ∧ _ => nobody both.1] at step
    rw [if_pos nobody]
    have later : ∀ b', ({ io.call d with front := none } : IoCall δ β).phase b' = .away :=
      IoCall.phase_of_idle rfl joins
    refine Safe.access fault sound told fresh known (fun b' other => ?_) (fun _ => rfl)
      (List.Subset.refl _) ?_ (by simp) (Equiv.refl _)
      (holds_access_of_keeps known keeps (IoCall.keeps_of_front rfl) fun fd file => by simp)
    · rw [phases, if_neg other.symm]
      exact later b'
    · rintro changed ⟨⟩
      refine ⟨rfl, ?_, fun _ => Or.inl closed⟩
      rw [← later b] at step
      exact step

/-- The last driver that has to do with a body deletes it. -/
theorem Safe.deleteBody (safe : io.Safe steps) {d : δ} {b : β}
    (front : (io.call d).front = some (.delete b)) :
    ∃ next, io.deleteBody d b = some next ∧ next.Safe (steps + 1) := by
  obtain ⟨fault, registry, sound, told, fresh⟩ := safe
  have joins := sound.joins_of_front front
  have phases : ∀ b', (io.call d).phase b' = if b = b' then .deletes else .away :=
    IoCall.phase_of_front front
  have later : ∀ b', ({ io.call d with front := none } : IoCall δ β).phase b' = .away :=
    IoCall.phase_of_idle rfl joins
  have deletes : io.phase b d = .deletes := (phases b).trans (if_pos rfl)
  obtain ⟨body, known⟩ := sound.involved d b (by rw [deletes]; rintro ⟨⟩)
  obtain ⟨vacant, others, base⟩ := (sound.body b body known).alone_of_deletes deletes
  have keeps : (io.call d).Keeps := by
    intro baseFd file deletable closes
    rw [front] at closes
    cases closes
  refine ⟨_, by rw [Io.deleteBody, known, Option.map_some], ?_⟩
  rw [if_pos base]
  refine Safe.access fault sound told fresh known (fun b' other => ?_) (fun _ => rfl)
    (List.Subset.refl _) (by simp) (fun _ => ⟨vacant, fun d' => ?_⟩) (Equiv.refl _)
    (holds_access_of_keeps known keeps (IoCall.keeps_of_front rfl) fun fd file =>
      iff_of_false (by simp) fun based => by
        rw [base] at based
        cases based.1)
  · rw [phases, if_neg other.symm]
    exact later b'
  · by_cases same : d' = d
    · subst same
      rw [Function.update_self]
      exact later b
    · rw [Function.update_of_ne same]
      exact others d' same

omit [DecidableEq β] [Fintype δ] in
/-- A file of which nothing is registered is closed without a trace. -/
theorem osClose_eq {d : δ} {fd : BitVec 32} {file : Nat} (isOpen : io.os fd.toNat = some file)
    (unregistered : ∀ d n entry, (io.driver d).epoll n = some entry → entry.file ≠ file)
    (deletable : Option β) :
    io.osClose d fd file deletable = some { io.setFront d (deletable.map .delete) with
      os := Function.update io.os fd.toNat none } := by
  have same : (fun d => { io.driver d with
      epoll := fun n => (io.driver d).epoll n |>.filter fun entry => entry.file ≠ file }) =
      io.driver := by
    funext d
    have epoll : (fun n => (io.driver d).epoll n |>.filter fun entry => entry.file ≠ file) =
        (io.driver d).epoll := by
      funext n
      cases here : (io.driver d).epoll n with
      | none => rfl
      | some entry =>
          rw [Option.filter_some, if_pos]
          simpa using unregistered d n entry here
    rw [epoll]
  rw [osClose, if_pos isOpen, same]
  rfl

/-- `::close`, by the only driver that is about to close the file. -/
theorem Safe.osClose (safe : io.Safe steps) {d : δ} {fd : BitVec 32} {file : Nat}
    {deletable : Option β} (front : (io.call d).front = some (.osClose fd file deletable)) :
    ∃ next, io.osClose d fd file deletable = some next ∧ next.Safe (steps + 1) := by
  obtain ⟨fault, registry, sound, told, fresh⟩ := safe
  have joins := sound.joins_of_front front
  have holder : io.Holds (.inr d) fd.toNat file := ⟨fd, deletable, front, rfl⟩
  have isOpen := (sound.owned.held fd.toNat file).mpr ⟨_, holder⟩
  refine ⟨_, osClose_eq isOpen (fun d' n entry => sound.file_ne holder) deletable, ?_⟩
  obtain ⟨next, result⟩ : ∃ next : Io δ β ε, next = { io.setFront d (deletable.map .delete) with
      os := Function.update io.os fd.toNat none } := ⟨_, rfl⟩
  rw [← result]
  have calls : next.call = Function.update io.call d
      { io.call d with front := deletable.map .delete } := by
    rw [result]
    rfl
  have bodies : next.body = io.body := by
    rw [result]
    rfl
  have drivers : next.driver = io.driver := by
    rw [result]
    rfl
  have phases : ∀ b, next.phase b = io.phase b := by
    intro b
    refine phase_eq_of_call calls ?_
    rw [IoCall.phase_of_front front]
    cases deletable with
    | none => simp [IoCall.phase, IoAccess.phase, joins]
    | some b' => simp [IoCall.phase, IoAccess.phase]
  have sameFile : ∀ b body changed, io.body b = some body → next.body b = some changed →
      changed.file = body.file := by
    intro b body changed before later
    rw [bodies, before] at later
    rw [Option.some.inj later]
  have sound' : next.Sound registry := by
    refine sound.step (fun d' => ?_) sameFile
      (fun b => Or.inl ⟨by rw [bodies], rfl, phases b⟩) ?_ (fun d' => ?_)
    · rw [drivers, show next.isEmpty = io.isEmpty by rw [result]; rfl]
      exact sound.driver d'
    · refine sound.owned.drop holder (by rw [result]) (by rw [result]; rfl) fun who n f => ?_
      cases who with
      | inl b => simp [Holds, bodies]
      | inr d' =>
          by_cases same : d' = d
          · subst same
            simp only [ne_eq, not_true_eq_false, false_and, iff_false]
            refine not_holds_of_keeps (fun baseFd f' deletable' closes => ?_) n f
            rw [calls, Function.update_self] at closes
            cases deletable <;> cases closes
          · simp [Holds, calls, same]
    · rw [calls]
      by_cases same : d' = d
      · subst same
        rw [Function.update_self]
        exact fun any => absurd joins any
      · rw [Function.update_of_ne same]
        exact sound.alone d'
  refine ⟨by rw [result]; exact fault, registry, sound', ?_, fun small => ?_⟩
  · refine told.step (fun d' n b body watches known closed => ?_) fun d' n b _ pending => ?_
    · rw [bodies] at known
      exact Or.inr ⟨watches, body, known, closed⟩
    · refine pending.mono (fun message sent => Or.inl ?_) fun d'' message waits _ => Or.inr ?_
      · rw [drivers]
        exact sent
      · refine ⟨d'', ?_⟩
        rw [calls]
        by_cases same : d'' = d
        · subst same
          rw [Function.update_self]
          exact waits
        · rw [Function.update_of_ne same]
          exact waits
  · have before := fresh (by omega)
    have installed : next.installed = io.installed := by
      rw [result]
      rfl
    refine before.step sound' sameFile (fun d' => ?_) (fun ev f same => ?_)
      (fun ev source member => Or.inl ?_)
    · rw [installed]
      exact before.same (by rw [drivers]) (by rw [drivers])
    · rw [installed]
      exact same
    · rw [result] at member
      exact member

end Io

end DoomDraft.Cotamer
