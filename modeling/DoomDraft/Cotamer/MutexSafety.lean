import DoomDraft.Cotamer.MutexQueue

/-!
# Safety of the mutex

Under every interleaving of threads an exclusive lock is held alone, locks are
granted in the order in which they were asked for, and nobody waits who could go on.
-/

namespace DoomDraft.Cotamer

universe u

variable {τ : Type u}

/-! ## The word and the threads -/

/-- The word in the hands of a thread that has the latch. -/
def MutexPc.latched? : MutexPc → Option LatchType
  | .entered _ l => some l
  | .leaving l => some l
  | _ => none

/-- The lock that a thread is about to release. -/
def MutexPc.releases? : MutexPc → Option Ticket
  | .wants (.unlock ticket) => some ticket
  | .entered (.unlock ticket) _ => some ticket
  | .swaps (.unlock ticket) _ => some ticket
  | _ => none

/-- What a thread has checked of the word that it is about to exchange. -/
def MutexPc.Checked : MutexPc → Prop
  | .swaps (.lock ..) _ => False
  | .swaps (.tryLock shared) l => if shared then Mutex.busyShared l = false else l = 0
  | .swaps (.unlock ticket) l => Mutex.fastUnlock ticket.shared l = true
  | _ => True

/-- The latch is held by at most one thread, and the word accounts for locks and
waiters whenever nobody holds it. -/
structure Words (mutex : Mutex τ) : Prop where
  free : (∀ i, (mutex.pc i).latched? = none) →
    mutex.latch = word (weight mutex.locked + nextBits mutex.waiters)
  inside : ∀ i l, (mutex.pc i).latched? = some l →
    mutex.latch &&& mfLatch ≠ 0 ∧ l = word (weight mutex.locked)
  alone : ∀ i j, (mutex.pc i).latched? ≠ none → (mutex.pc j).latched? ≠ none → i = j
  checked : ∀ i, (mutex.pc i).Checked
  releasing : ∀ i ticket, (mutex.pc i).releases? = some ticket → ticket ∈ mutex.unlocking
  once : ∀ i j ticket, (mutex.pc i).releases? = some ticket →
    (mutex.pc j).releases? = some ticket → i = j

/-- What holds of a mutex between the steps of its threads. -/
structure Guarded (mutex : Mutex τ) : Prop extends Sound mutex, Words mutex where
  blocked : Blocked mutex

theorem guarded_construct : Guarded (Mutex.construct : Mutex τ) where
  sorted := List.Pairwise.nil
  bound := fun _ member => absurd member List.not_mem_nil
  complete := fun _ below => absurd below (Nat.not_lt_zero _)
  notified := rfl
  compatible := Compatible.nil
  owned := fun _ member => absurd member List.not_mem_nil
  unlocking := List.nodup_nil
  held := fun _ member => absurd member List.not_mem_nil
  free := fun _ => rfl
  inside := fun _ _ isInside => absurd isInside.symm (Option.some_ne_none _)
  alone := fun _ _ isInside => absurd rfl isInside
  checked := fun _ => trivial
  releasing := fun _ _ releases => absurd releases.symm (Option.some_ne_none _)
  once := fun _ _ _ releases => absurd releases.symm (Option.some_ne_none _)
  blocked := fun fw rest waits => absurd waits.symm (List.cons_ne_nil fw rest)

variable {self : Mutex τ} {i : τ} {pc : MutexPc}

/-- The lock that is to be released joins those for which this is under way. -/
theorem Guarded.withUnlocking (guarded : Guarded self) {ticket : Ticket}
    (held : ticket ∈ self.locked) (fresh : ticket ∉ self.unlocking) :
    Guarded { self with unlocking := ticket :: self.unlocking } :=
  { guarded with
    toInOrder := guarded.toInOrder.frame rfl rfl rfl rfl rfl
    unlocking := List.nodup_cons.mpr ⟨fresh, guarded.unlocking⟩
    held := List.forall_mem_cons.mpr ⟨held, guarded.held⟩
    releasing := fun i other releases =>
      List.mem_cons_of_mem _ (guarded.releasing i other releases) }

/-- Nobody has the latch while its bit is clear. -/
theorem Words.nobody (words : Words self) (clear : self.latch &&& mfLatch = 0) (j : τ) :
    (self.pc j).latched? = none := by
  cases isInside : (self.pc j).latched? with
  | none => rfl
  | some l => exact absurd clear (words.inside j l isInside).1

theorem Words.others (words : Words self) {l : LatchType} (isInside : (self.pc i).latched? = some l)
    (j : τ) (different : j ≠ i) : (self.pc j).latched? = none := by
  by_contra alsoInside
  exact different (words.alone j i alsoInside (by simp [isInside]))

/-- Another thread's lock is still there when thread `i` has released its own. -/
theorem Words.stillReleasing (words : Words self) (sound : Sound self) {ticket : Ticket}
    (own : (self.pc i).releases? = some ticket) (j : τ) (other : Ticket) (different : j ≠ i)
    (releases : (self.pc j).releases? = some other) : other ∈ self.unlocking.erase ticket := by
  refine (List.Nodup.mem_erase_iff sound.unlocking).mpr ⟨?_, words.releasing j other releases⟩
  rintro rfl
  exact different (words.once j i other releases own)

theorem unlatched_word {l : LatchType} (isWord : l = word (weight self.locked)) :
    self.unlatched l = word (weight self.locked + nextBits self.waiters) := by
  rw [Mutex.unlatched, isWord]
  cases self.waiters with
  | nil => rfl
  | cons fw rest =>
      dsimp only [nextBits]
      rw [← word_add]
      cases fw.shared <;> rfl

/-- Where the word is exchanged nobody has the latch. -/
theorem Words.nobody_of_checked (words : Words self) {call : MutexCall}
    (located : self.pc i = .swaps call self.latch) (j : τ) : (self.pc j).latched? = none := by
  refine words.nobody ?_ j
  have checked := words.checked i
  rw [located] at checked
  cases call with
  | lock shared notify => exact checked.elim
  | tryLock shared =>
      cases shared with
      | false =>
          have zero : self.latch = 0 := checked
          rw [zero]
          rfl
      | true => exact and_part (not_not.mp (of_decide_eq_false checked)) (by decide)
  | unlock ticket =>
      cases kind : ticket.shared with
      | false =>
          have fast : Mutex.fastUnlock ticket.shared self.latch = true := checked
          rw [kind] at fast
          exact and_part (of_decide_eq_true fast) (by decide)
      | true =>
          have fast : Mutex.fastUnlock ticket.shared self.latch = true := checked
          rw [kind] at fast
          exact and_part (of_decide_eq_true fast).1 (by decide)

section Steps

variable [DecidableEq τ]

/-- Thread `i` moves while it has no latch; another thread may have it. -/
theorem Words.goTo (words : Words self) (before : (self.pc i).latched? = none)
    (after : pc.latched? = none) (checked : pc.Checked)
    (releases : ∀ ticket, pc.releases? = some ticket →
      ticket ∈ self.unlocking ∧ ∀ j, j ≠ i → (self.pc j).releases? ≠ some ticket) :
    Words (self.goTo i pc) := by
  have latched : ∀ j, (Function.update self.pc i pc j).latched? = (self.pc j).latched? := by
    intro j
    by_cases same : j = i
    · subst same
      rw [Function.update_self, before, after]
    · rw [Function.update_of_ne same]
  refine ⟨fun nobody => words.free fun j => (latched j).symm.trans (nobody j), ?_, ?_, ?_, ?_, ?_⟩
  · exact fun j l isInside => words.inside j l ((latched j).symm.trans isInside)
  · exact fun j k jInside kInside => words.alone j k (latched j ▸ jInside) (latched k ▸ kInside)
  · intro j
    simp only [Mutex.goTo]
    by_cases same : j = i
    · subst same
      rwa [Function.update_self]
    · rw [Function.update_of_ne same]
      exact words.checked j
  · intro j ticket releasing
    simp only [Mutex.goTo] at releasing
    by_cases same : j = i
    · subst same
      rw [Function.update_self] at releasing
      exact (releases ticket releasing).1
    · rw [Function.update_of_ne same] at releasing
      exact words.releasing j ticket releasing
  · intro j k ticket jReleases kReleases
    simp only [Mutex.goTo] at jReleases kReleases
    by_cases jSame : j = i <;> by_cases kSame : k = i
    · rw [jSame, kSame]
    · subst jSame
      rw [Function.update_self] at jReleases
      rw [Function.update_of_ne kSame] at kReleases
      exact absurd kReleases ((releases ticket jReleases).2 k kSame)
    · subst kSame
      rw [Function.update_self] at kReleases
      rw [Function.update_of_ne jSame] at jReleases
      exact absurd jReleases ((releases ticket kReleases).2 j jSame)
    · rw [Function.update_of_ne jSame] at jReleases
      rw [Function.update_of_ne kSame] at kReleases
      exact words.once j k ticket jReleases kReleases

/-- Thread `i` changes the word or the queue while no other thread has the latch. -/
theorem Words.update (words : Words self) {after : Mutex τ}
    (others : ∀ j, j ≠ i → (self.pc j).latched? = none)
    (pcs : after.pc = Function.update self.pc i pc) (checked : pc.Checked)
    (stored : pc.latched? = none →
      after.latch = word (weight after.locked + nextBits after.waiters))
    (isLocal : ∀ l, pc.latched? = some l →
      after.latch &&& mfLatch ≠ 0 ∧ l = word (weight after.locked))
    (own : ∀ ticket, pc.releases? = some ticket →
      (self.pc i).releases? = some ticket ∧ ticket ∈ after.unlocking)
    (kept : ∀ j ticket, j ≠ i → (self.pc j).releases? = some ticket → ticket ∈ after.unlocking) :
    Words after := by
  have ownPc : after.pc i = pc := by rw [pcs, Function.update_self]
  have other : ∀ j, j ≠ i → after.pc j = self.pc j := by
    intro j different
    rw [pcs, Function.update_of_ne different]
  have isOwn : ∀ j, (after.pc j).latched? ≠ none → j = i := by
    intro j isInside
    by_contra different
    rw [other j different, others j different] at isInside
    exact isInside rfl
  have releases : ∀ j ticket, (after.pc j).releases? = some ticket →
      (self.pc j).releases? = some ticket ∧ ticket ∈ after.unlocking := by
    intro j ticket releasing
    by_cases same : j = i
    · subst same
      rw [ownPc] at releasing
      exact own ticket releasing
    · rw [other j same] at releasing
      exact ⟨releasing, kept j ticket same releasing⟩
  refine ⟨fun nobody => stored (ownPc ▸ nobody i), ?_, ?_, ?_, ?_, ?_⟩
  · intro j l isInside
    obtain rfl := isOwn j (by simp [isInside])
    exact isLocal l (ownPc ▸ isInside)
  · exact fun j k jInside kInside => (isOwn j jInside).trans (isOwn k kInside).symm
  · intro j
    by_cases same : j = i
    · subst same
      rwa [ownPc]
    · rw [other j same]
      exact words.checked j
  · exact fun j ticket releasing => (releases j ticket releasing).2
  · exact fun j k ticket jReleases kReleases =>
      words.once j k ticket (releases j ticket jReleases).1 (releases k ticket kReleases).1

theorem Guarded.goTo (guarded : Guarded self) (words : Words (self.goTo i pc)) :
    Guarded (self.goTo i pc) :=
  { toSound := ⟨⟨guarded.sorted, guarded.bound, guarded.complete, guarded.notified⟩,
      guarded.compatible, guarded.owned, guarded.unlocking, guarded.held⟩
    toWords := words
    blocked := guarded.blocked }

theorem Guarded.begin (guarded : Guarded self) {call : MutexCall} {after : Mutex τ}
    (begins : self.begin i call = some after) : Guarded after := by
  simp only [Mutex.begin] at begins
  split at begins
  · contradiction
  · rename_i idle
    rw [ne_eq, not_not] at idle
    have before : (self.pc i).latched? = none := by rw [idle]; rfl
    have noRelease : ∀ pc : MutexPc, pc.releases? = none → ∀ ticket,
        pc.releases? = some ticket →
          ticket ∈ self.unlocking ∧ ∀ j, j ≠ i → (self.pc j).releases? ≠ some ticket := by
      intro pc releasesNone ticket releases
      rw [releasesNone] at releases
      contradiction
    cases call with
    | lock shared notify =>
        obtain rfl := Option.some.inj begins
        exact guarded.goTo (guarded.toWords.goTo before rfl trivial (noRelease _ rfl))
    | tryLock shared =>
        cases shared with
        | false =>
            obtain rfl := Option.some.inj begins
            exact guarded.goTo (guarded.toWords.goTo before rfl rfl (noRelease _ rfl))
        | true =>
            dsimp only at begins
            split at begins
            · obtain rfl := Option.some.inj begins
              exact guarded
            · rename_i free
              obtain rfl := Option.some.inj begins
              exact guarded.goTo (guarded.toWords.goTo before rfl
                (Bool.eq_false_iff.mpr free) (noRelease _ rfl))
    | unlock ticket =>
        dsimp only at begins
        split at begins
        · rename_i allowed
          have extended := guarded.withUnlocking allowed.1 allowed.2
          have releases : ∀ pc : MutexPc, pc.releases? = some ticket → ∀ other,
              pc.releases? = some other → other ∈ ticket :: self.unlocking ∧
                ∀ j, j ≠ i → (self.pc j).releases? ≠ some other := by
            intro pc isTicket other isOther
            obtain rfl := Option.some.inj (isTicket.symm.trans isOther)
            exact ⟨List.mem_cons_self, fun j _ elsewhere =>
              allowed.2 (guarded.releasing j ticket elsewhere)⟩
          split at begins
          · rename_i fast
            obtain rfl := Option.some.inj begins
            exact extended.goTo (extended.toWords.goTo before rfl fast (releases _ rfl))
          · obtain rfl := Option.some.inj begins
            exact extended.goTo (extended.toWords.goTo before rfl trivial (releases _ rfl))
        · contradiction

/-- The latch is taken. -/
theorem Guarded.enter (guarded : Guarded self) (room : self.locked.length < 2 ^ 28 - 1)
    {call : MutexCall} (located : self.pc i = .wants call) (clear : self.latch &&& mfLatch = 0) :
    Guarded ({ self with latch := self.latch ||| mfLatch }.goTo i
      (.entered call (self.latch &&& ~~~mfmNext))) := by
  have nobody := guarded.nobody clear
  refine
    { toSound := ⟨⟨guarded.sorted, guarded.bound, guarded.complete, guarded.notified⟩,
        guarded.compatible, guarded.owned, guarded.unlocking, guarded.held⟩
      toWords := ?_
      blocked := guarded.blocked }
  refine guarded.toWords.update (fun j _ => nobody j) rfl ?_ ?_ ?_ ?_ ?_
  · trivial
  · exact fun outside => absurd outside (Option.some_ne_none _)
  · intro l isInside
    obtain rfl := Option.some.inj isInside
    refine ⟨?_, ?_⟩
    · dsimp only [Mutex.goTo]
      rw [or_and_self]
      decide
    · rw [guarded.free nobody]
      exact guarded.compatible.latched_word room
  · intro ticket releases
    have wanted : (self.pc i).releases? = some ticket := by
      rw [located]
      cases call <;> exact releases
    exact ⟨wanted, guarded.releasing i ticket wanted⟩
  · exact fun j ticket _ => guarded.releasing j ticket

/-- The latch holder does its work. -/
theorem Guarded.serve (guarded : Guarded self) {call : MutexCall} {l left : LatchType}
    {released after : Mutex τ} (located : self.pc i = .entered call l)
    (served : Served released after left) (latch : released.latch = self.latch)
    (pcs : released.pc = self.pc)
    (kept : ∀ j ticket, j ≠ i → (self.pc j).releases? = some ticket →
      ticket ∈ released.unlocking) :
    Guarded (after.goTo i (.leaving left)) := by
  have isInside : (self.pc i).latched? = some l := by rw [located]; rfl
  refine
    { toSound := ⟨⟨served.sound.sorted, served.sound.bound, served.sound.complete,
        served.sound.notified⟩, served.sound.compatible, served.sound.owned,
        served.sound.unlocking, served.sound.held⟩
      toWords := ?_
      blocked := served.blocked }
  have moves : (after.goTo i (.leaving left)).pc = Function.update self.pc i (.leaving left) := by
    simp only [Mutex.goTo, served.pc, pcs]
  refine guarded.toWords.update (guarded.others isInside) moves ?_ ?_ ?_ ?_ ?_
  · trivial
  · exact fun outside => absurd outside (Option.some_ne_none _)
  · intro given isLeft
    obtain rfl := Option.some.inj isLeft
    refine ⟨?_, served.word⟩
    dsimp only [Mutex.goTo]
    rw [served.latch, latch]
    exact (guarded.inside i l isInside).1
  · exact fun ticket releases => absurd releases.symm (Option.some_ne_none _)
  · intro j ticket different releases
    dsimp only [Mutex.goTo]
    rw [served.unlocking]
    exact kept j ticket different releases

/-- The latch is given back. -/
theorem Guarded.leave (guarded : Guarded self) {l : LatchType} (located : self.pc i = .leaving l) :
    Guarded ({ self with latch := self.unlatched l }.goTo i .idle) := by
  have isInside : (self.pc i).latched? = some l := by rw [located]; rfl
  refine
    { toSound := ⟨⟨guarded.sorted, guarded.bound, guarded.complete, guarded.notified⟩,
        guarded.compatible, guarded.owned, guarded.unlocking, guarded.held⟩
      toWords := ?_
      blocked := guarded.blocked }
  refine guarded.toWords.update (guarded.others isInside) rfl ?_ ?_ ?_ ?_ ?_
  · trivial
  · exact fun _ => unlatched_word (guarded.inside i l isInside).2
  · exact fun given isLeft => absurd isLeft.symm (Option.some_ne_none _)
  · exact fun ticket releases => absurd releases.symm (Option.some_ne_none _)
  · exact fun j ticket _ => guarded.releasing j ticket

/-- A lock is tried and had at once. -/
theorem Guarded.exchangeTry (guarded : Guarded self) (room : self.locked.length < 2 ^ 28 - 1)
    {shared : Bool} (located : self.pc i = .swaps (.tryLock shared) self.latch) :
    Guarded (({ self with
      count := self.count + 1
      latch := self.latch + Mutex.lockBits shared }.grant
        ⟨self.count, shared, false⟩).goTo i .idle) := by
  have nobody := guarded.nobody_of_checked located
  have isWord := guarded.free nobody
  have checked := guarded.checked i
  rw [located, isWord] at checked
  obtain ⟨noWaiter, allowed⟩ : self.waiters = [] ∧
      Compatible (⟨self.count, shared, false⟩ :: self.locked) := by
    cases shared with
    | false =>
        obtain ⟨noLock, noWaiter⟩ := guarded.compatible.of_word_eq_zero room checked
        refine ⟨noWaiter, ?_⟩
        rw [noLock]
        intro ticket member _
        rw [List.mem_singleton.mp member]
    | true =>
        obtain ⟨noWaiter, allShared⟩ := guarded.compatible.of_not_busy room checked
        refine ⟨noWaiter, fun ticket member exclusive => ?_⟩
        rcases List.mem_cons.mp member with rfl | old
        · contradiction
        · rw [allShared ticket old] at exclusive
          contradiction
  have granted := guarded.toSound.grantNow noWaiter shared false allowed
  refine
    { toSound := ⟨⟨granted.sorted, granted.bound, granted.complete, granted.notified⟩,
        granted.compatible, granted.owned, granted.unlocking, granted.held⟩
      toWords := ?_
      blocked := fun fw rest waits => absurd (noWaiter.symm.trans waits).symm
        (List.cons_ne_nil fw rest) }
  refine guarded.toWords.update (fun j _ => nobody j) rfl ?_ ?_ ?_ ?_ ?_
  · trivial
  · intro _
    simp only [Mutex.goTo, Mutex.grant]
    rw [isWord, noWaiter, weight_cons, lockBits_eq, word_add, Nat.add_right_comm]
  · exact fun given isLeft => absurd isLeft.symm (Option.some_ne_none _)
  · exact fun ticket releases => absurd releases.symm (Option.some_ne_none _)
  · exact fun j ticket _ => guarded.releasing j ticket

/-- A lock is released without the latch. -/
theorem Guarded.exchangeUnlock (guarded : Guarded self) (room : self.locked.length < 2 ^ 28 - 1)
    {ticket : Ticket} (located : self.pc i = .swaps (.unlock ticket) self.latch) :
    Guarded ({ self with
      latch := self.latch - Mutex.lockBits ticket.shared
      locked := self.locked.erase ticket
      unlocking := self.unlocking.erase ticket }.goTo i .idle) := by
  have nobody := guarded.nobody_of_checked located
  have isWord := guarded.free nobody
  have releases : (self.pc i).releases? = some ticket := by rw [located]; rfl
  have member := guarded.releasing i ticket releases
  have checked := guarded.checked i
  rw [located, isWord] at checked
  have released := guarded.toSound.release ticket
  refine
    { toSound := ⟨⟨released.sorted, released.bound, released.complete, released.notified⟩,
        released.compatible, released.owned, released.unlocking, released.held⟩
      toWords := ?_
      blocked := ?_ }
  · refine guarded.toWords.update (fun j _ => nobody j) rfl ?_ ?_ ?_ ?_ ?_
    · trivial
    · intro _
      simp only [Mutex.goTo]
      rw [isWord]
      exact word_release guarded.toSound member _
    · exact fun given isLeft => absurd isLeft.symm (Option.some_ne_none _)
    · exact fun other isIdle => absurd isIdle.symm (Option.some_ne_none _)
    · exact fun j other different =>
        guarded.stillReleasing guarded.toSound releases j other different
  · intro fw rest waits allowed
    rcases guarded.compatible.of_fastUnlock room (guarded.held ticket member) checked with
      noWaiter | ⟨first, others, waiting, exclusive, stays⟩
    · exact absurd (noWaiter.symm.trans waits).symm (List.cons_ne_nil fw rest)
    · obtain ⟨rfl, -⟩ := List.cons.inj (waiting.symm.trans waits)
      exact stays (List.cons.inj (allowed first List.mem_cons_self exclusive)).2

/-- The number of locks that are held or waited for stays within the word. -/
def Mutex.Roomy (self : Mutex τ) (_ : MutexAction τ) : Prop :=
  self.locked.length + self.waiters.length + 1 < 2 ^ 28 - 1

theorem Guarded.advance (guarded : Guarded self)
    (room : self.locked.length + self.waiters.length + 1 < 2 ^ 28 - 1) {after : Mutex τ}
    (advances : self.advance i = some after) : Guarded after := by
  have few : self.locked.length < 2 ^ 28 - 1 := by omega
  simp only [Mutex.advance] at advances
  split at advances
  · contradiction
  · rename_i call located
    split at advances
    · rename_i clear
      obtain rfl := Option.some.inj advances
      exact guarded.enter few located clear
    · contradiction
  · rename_i call l located
    have isInside : (self.pc i).latched? = some l := by rw [located]; rfl
    have isWord := (guarded.inside i l isInside).2
    obtain rfl := Option.some.inj advances
    cases call with
    | lock shared notify =>
        exact guarded.serve located
          (lockImpl_served guarded.toSound isWord (by omega) shared notify) rfl rfl
          fun j ticket _ => guarded.releasing j ticket
    | tryLock shared =>
        exact guarded.serve located ⟨⟨rfl, rfl, rfl⟩, guarded.toSound, guarded.blocked, isWord⟩
          rfl rfl fun j ticket _ => guarded.releasing j ticket
    | unlock ticket =>
        have releases : (self.pc i).releases? = some ticket := by rw [located]; rfl
        obtain ⟨released, served, latch, pcs, unlocking⟩ := unlockImpl_served guarded.toSound
          isWord (by omega) (guarded.releasing i ticket releases)
        refine guarded.serve located served latch pcs fun j other different elsewhere => ?_
        rw [unlocking]
        exact guarded.stillReleasing guarded.toSound releases j other different elsewhere
  · rename_i l located
    obtain rfl := Option.some.inj advances
    exact guarded.leave located
  · rename_i call l located
    split at advances
    · rename_i same
      subst same
      cases call with
      | lock shared notify => contradiction
      | tryLock shared =>
          obtain rfl := Option.some.inj advances
          exact guarded.exchangeTry few located
      | unlock ticket =>
          obtain rfl := Option.some.inj advances
          exact guarded.exchangeUnlock few located
    · have outside : (self.pc i).latched? = none := by rw [located]; rfl
      cases call with
      | lock shared notify => contradiction
      | tryLock shared =>
          obtain rfl := Option.some.inj advances
          exact guarded.goTo (guarded.toWords.goTo outside rfl trivial fun ticket releases =>
            absurd releases.symm (Option.some_ne_none _))
      | unlock ticket =>
          have releases : (self.pc i).releases? = some ticket := by rw [located]; rfl
          obtain rfl := Option.some.inj advances
          refine guarded.goTo (guarded.toWords.goTo outside rfl trivial fun other isOther => ?_)
          obtain rfl := Option.some.inj isOther
          exact ⟨guarded.releasing i ticket releases, fun j different elsewhere =>
            different (guarded.once j i ticket elsewhere releases)⟩

theorem Guarded.step (guarded : Guarded self) {action : MutexAction τ}
    (roomy : self.Roomy action) {after : Mutex τ} (stepped : self.step action = some after) :
    Guarded after := by
  cases action with
  | begin i call => exact guarded.begin stepped
  | advance i => exact guarded.advance roomy stepped
  | abandon ticket =>
      simp only [Mutex.step] at stepped
      split at stepped
      · obtain rfl := Option.some.inj stepped
        refine { guarded with complete := fun id below => ?_ }
        obtain ⟨other, isId, present | abandoned⟩ := guarded.complete id below
        · exact ⟨other, isId, Or.inl present⟩
        · exact ⟨other, isId, Or.inr (List.mem_cons_of_mem _ abandoned)⟩
      · contradiction

end Steps

/-! ## Every run -/

theorem Sound.exclusive_of_blocked (sound : Sound self) (blocked : Blocked self) {fw : Ticket}
    {rest : List Ticket} (waits : self.waiters = fw :: rest) :
    if fw.shared then ∃ ticket ∈ self.locked, ticket.shared = false else self.locked ≠ [] := by
  have refused := blocked fw rest waits
  split
  · rename_i shared
    rcases sound.compatible.cases with ⟨allShared, -⟩ | ⟨ticket, locked, exclusive, -⟩
    · refine absurd (fun other member exclusive => ?_) refused
      rcases List.mem_cons.mp member with rfl | old
      · rw [shared] at exclusive
        contradiction
      · rw [allShared other old] at exclusive
        contradiction
    · exact ⟨ticket, locked ▸ List.mem_cons_self, exclusive⟩
  · intro nobody
    rw [nobody] at refused
    exact refused fun other member _ => by rw [List.mem_singleton.mp member]

theorem Words.exists_advance [DecidableEq τ] (words : Words self) (busy : self.pc i ≠ .idle) :
    ∃ j, (self.advance j).isSome = true := by
  by_cases someone : ∃ j, (self.pc j).latched? ≠ none
  · obtain ⟨j, isInside⟩ := someone
    refine ⟨j, ?_⟩
    cases located : self.pc j with
    | idle => rw [located] at isInside; exact absurd rfl isInside
    | wants call => rw [located] at isInside; exact absurd rfl isInside
    | entered call l => simp [Mutex.advance, located]
    | leaving l => simp [Mutex.advance, located]
    | swaps call l => rw [located] at isInside; exact absurd rfl isInside
  · have nobody : ∀ j, (self.pc j).latched? = none :=
      fun j => not_not.mp fun isInside => someone ⟨j, isInside⟩
    have clear : self.latch &&& mfLatch = 0 := by
      rw [words.free nobody]
      exact latch_clear _ _
    refine ⟨i, ?_⟩
    cases located : self.pc i with
    | idle => exact absurd located busy
    | wants call => simp [Mutex.advance, located, clear]
    | entered call l => simp [Mutex.advance, located]
    | leaving l => simp [Mutex.advance, located]
    | swaps call l =>
        cases call with
        | lock shared notify =>
            have checked := words.checked i
            rw [located] at checked
            exact checked.elim
        | tryLock shared => by_cases same : self.latch = l <;> simp [Mutex.advance, located, same]
        | unlock ticket => by_cases same : self.latch = l <;> simp [Mutex.advance, located, same]

/-- The mutex in every run, whatever the interleaving of its threads, as long as the
locks and the waiters are fewer than 2^28 - 2 at each step: each takes 16 in a word of
32 bits, and nothing checks that there is room.  An exclusive lock is held alone.  Locks
are granted in the order in which the requests reached the mutex, nobody being overtaken,
and to all but those who have abandoned their requests; the flags set are those of the
granted.  Who waits at the head of the queue is kept out by a lock that is held.  While a
thread is in a call some thread can go on. -/
theorem mutex_safety [DecidableEq τ] {actions : List (MutexAction τ)} {mutex : Mutex τ}
    (run : Transition.perform Mutex.step Mutex.construct actions = some mutex)
    (roomy : Transition.Permitted Mutex.step Mutex.Roomy Mutex.construct actions) :
    (∀ ticket ∈ mutex.locked, ticket ∈ mutex.granted ∧
        (ticket.shared = false → mutex.locked = [ticket])) ∧
      (mutex.granted ++ mutex.waiters).Pairwise (fun first second => first.id < second.id) ∧
      (∀ id < mutex.count, ∃ ticket, ticket.id = id ∧
        (ticket ∈ mutex.granted ++ mutex.waiters ∨ ticket ∈ mutex.gone)) ∧
      mutex.notified = mutex.granted.filter Ticket.notify ∧
      (∀ fw rest, mutex.waiters = fw :: rest →
        if fw.shared then ∃ ticket ∈ mutex.locked, ticket.shared = false
        else mutex.locked ≠ []) ∧
      ∀ i, mutex.pc i ≠ .idle → ∃ j, (mutex.advance j).isSome = true := by
  have guarded : Guarded mutex := Transition.perform_induction
    (fun _ _ _ guarded roomy stepped => guarded.step roomy stepped) guarded_construct roomy run
  exact ⟨fun ticket member => ⟨guarded.owned ticket member, guarded.compatible ticket member⟩,
    guarded.sorted, guarded.complete, guarded.notified, fun _ _ =>
      guarded.toSound.exclusive_of_blocked guarded.blocked, fun _ => guarded.toWords.exists_advance⟩

instance decidableRoomy (self : Mutex τ) (action : MutexAction τ) :
    Decidable (self.Roomy action) :=
  Nat.decLt _ _

/-- One thread asks for the lock, shared, while another holds it alone; that one then
releases it. -/
def handover : List (MutexAction Bool) :=
  [.begin false (.lock false false), .advance false, .begin true (.lock true true),
    .advance false, .advance false, .advance true, .begin false (.unlock ⟨0, false, false⟩),
    .advance true, .advance true, .advance false, .advance false, .advance false]

theorem mutex_safety_handover : ∃ mutex : Mutex Bool,
    Transition.perform Mutex.step Mutex.construct handover = some mutex ∧
      mutex.locked = [⟨1, true, true⟩] ∧ mutex.notified = [⟨1, true, true⟩] ∧
      (mutex.granted ++ mutex.waiters).Pairwise fun first second => first.id < second.id := by
  have facts : (Transition.perform Mutex.step Mutex.construct handover).any (fun mutex =>
      mutex.locked = [⟨1, true, true⟩] ∧ mutex.notified = [⟨1, true, true⟩]) = true := by
    decide +kernel
  obtain ⟨mutex, run, held⟩ := (Option.any_eq_true _ _).mp facts
  obtain ⟨locked, notified⟩ := of_decide_eq_true held
  exact ⟨mutex, run, locked, notified, (mutex_safety run (by decide +kernel)).2.1⟩

end DoomDraft.Cotamer
