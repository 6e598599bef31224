import DoomDraft.Cotamer.MutexWord

/-!
# The queue of a mutex

The thread that has the latch grants locks to waiters and takes up a request.  It ends
with the word of the locks that are held then, and with a first waiter who is kept out.
-/

namespace DoomDraft.Cotamer

universe u

variable {τ : Type u}

/-! ## The queue -/

/-- Locks are granted in the order of the requests, and a request that is neither
granted nor waiting has been abandoned. -/
structure InOrder (mutex : Mutex τ) : Prop where
  sorted : (mutex.granted ++ mutex.waiters).Pairwise fun first second => first.id < second.id
  bound : ∀ ticket ∈ mutex.granted ++ mutex.waiters, ticket.id < mutex.count
  complete : ∀ id < mutex.count,
    ∃ ticket, ticket.id = id ∧ (ticket ∈ mutex.granted ++ mutex.waiters ∨ ticket ∈ mutex.gone)
  notified : mutex.notified = mutex.granted.filter Ticket.notify

/-- What holds of locks and waiters whoever has the latch. -/
structure Sound (mutex : Mutex τ) : Prop extends InOrder mutex where
  compatible : Compatible mutex.locked
  owned : ∀ ticket ∈ mutex.locked, ticket ∈ mutex.granted
  unlocking : mutex.unlocking.Nodup
  held : ∀ ticket ∈ mutex.unlocking, ticket ∈ mutex.locked

/-- The first waiter could not be granted its lock. -/
def Blocked (mutex : Mutex τ) : Prop :=
  ∀ fw rest, mutex.waiters = fw :: rest → ¬ Compatible (fw :: mutex.locked)

/-- What a step of the latch holder leaves alone. -/
structure KeepsThreads (before after : Mutex τ) : Prop where
  latch : after.latch = before.latch
  pc : after.pc = before.pc
  unlocking : after.unlocking = before.unlocking

/-- The latch holder has done its work and is left with the word of the locks held. -/
structure Served (before after : Mutex τ) (l : LatchType) : Prop extends
    KeepsThreads before after where
  sound : Sound after
  blocked : Blocked after
  word : l = Cotamer.word (weight after.locked)

theorem InOrder.frame {before after : Mutex τ} (inOrder : InOrder before)
    (granted : after.granted = before.granted) (waiters : after.waiters = before.waiters)
    (gone : after.gone = before.gone) (notified : after.notified = before.notified)
    (count : after.count = before.count) : InOrder after := by
  refine ⟨?_, ?_, ?_, ?_⟩
  · rw [granted, waiters]
    exact inOrder.sorted
  · rw [granted, waiters, count]
    exact inOrder.bound
  · rw [granted, waiters, gone, count]
    exact inOrder.complete
  · rw [granted, notified]
    exact inOrder.notified

section Notify

variable {self : Mutex τ}

theorem filter_notify_append (tickets : List Ticket) (ticket : Ticket) :
    (tickets ++ [ticket]).filter Ticket.notify =
      if ticket.notify then tickets.filter Ticket.notify ++ [ticket]
      else tickets.filter Ticket.notify := by
  cases notify : ticket.notify <;> simp [notify]

/-- The first waiter is granted its lock. -/
theorem Sound.grantFirst {fw : Ticket} {rest : List Ticket}
    (sound : Sound { self with waiters := fw :: rest })
    (allowed : Compatible (fw :: self.locked)) :
    Sound { self.grant fw with waiters := rest } where
  sorted := by
    have sorted := sound.sorted
    rwa [List.append_cons] at sorted
  bound := by
    have bound := sound.bound
    rwa [List.append_cons] at bound
  complete := by
    have complete := sound.complete
    rwa [List.append_cons] at complete
  notified := by
    have notified := sound.notified
    dsimp only [Mutex.grant] at notified ⊢
    rw [filter_notify_append, notified]
  compatible := allowed
  owned := List.forall_mem_cons.mpr ⟨List.mem_append_right _ List.mem_cons_self,
    fun ticket member => List.mem_append_left _ (sound.owned ticket member)⟩
  unlocking := sound.unlocking
  held := fun ticket member => List.mem_cons_of_mem _ (sound.held ticket member)

/-- An abandoned waiter is taken off the queue. -/
theorem Sound.dropFirst {fw : Ticket} {rest : List Ticket}
    (sound : Sound { self with waiters := fw :: rest }) (gone : fw ∈ self.gone) :
    Sound { self with waiters := rest } := by
  have fewer : (self.granted ++ rest).Sublist (self.granted ++ fw :: rest) :=
    (List.sublist_cons_self fw rest).append_left self.granted
  refine { sound with sorted := ?_, bound := ?_, complete := ?_ }
  · exact sound.sorted.sublist fewer
  · exact fun ticket member => sound.bound ticket (fewer.subset member)
  · intro id below
    obtain ⟨ticket, isId, present | abandoned⟩ := sound.complete id below
    · refine ⟨ticket, isId, ?_⟩
      rcases List.mem_append.mp present with old | waiting
      · exact Or.inl (List.mem_append_left _ old)
      · rcases List.mem_cons.mp waiting with rfl | later
        · exact Or.inr gone
        · exact Or.inl (List.mem_append_right _ later)
    · exact ⟨ticket, isId, Or.inr abandoned⟩

theorem notifyLoop_served (waiting : List Ticket) {l : LatchType}
    (sound : Sound { self with waiters := waiting }) (isWord : l = word (weight self.locked))
    (room : self.locked.length + waiting.length < 2 ^ 28) :
    Served self (Mutex.notifyLoop waiting self l).1 (Mutex.notifyLoop waiting self l).2 ∧
      (Mutex.notifyLoop waiting self l).1.count = self.count ∧
      (Mutex.notifyLoop waiting self l).1.locked.length +
        (Mutex.notifyLoop waiting self l).1.waiters.length ≤
          self.locked.length + waiting.length := by
  induction waiting generalizing self l with
  | nil =>
      refine ⟨⟨⟨rfl, rfl, rfl⟩, sound, ?_, isWord⟩, rfl, le_rfl⟩
      exact fun fw rest waits => absurd waits.symm (List.cons_ne_nil fw rest)
  | cons fw rest ih =>
      rw [List.length_cons] at room
      unfold Mutex.notifyLoop
      split
      · rename_i gone
        obtain ⟨served, count, fits⟩ := ih (sound.dropFirst gone) isWord (by omega)
        exact ⟨served, count, fits.trans (by simp)⟩
      · have decides := sound.compatible.allow_iff (show self.locked.length < 2 ^ 28 by omega) fw
        split
        · rename_i allowed
          rw [isWord] at allowed
          have granted := sound.grantFirst (decides.mp allowed)
          have nextWord : l + Mutex.lockBits fw.shared = word (weight (self.grant fw).locked) := by
            rw [isWord, lockBits_eq, word_add, ← weight_cons]
            rfl
          obtain ⟨served, count, fits⟩ := ih granted nextWord (by
            simp only [Mutex.grant, List.length_cons]
            omega)
          refine ⟨{ served with
            latch := served.latch, pc := served.pc, unlocking := served.unlocking }, count, ?_⟩
          refine fits.trans (le_of_eq ?_)
          simp only [Mutex.grant, List.length_cons]
          omega
        · rename_i refused
          refine ⟨⟨⟨rfl, rfl, rfl⟩, sound, ?_, isWord⟩, rfl, le_rfl⟩
          rintro first later waits allowed
          obtain ⟨rfl, -⟩ := List.cons.inj waits
          exact refused (isWord ▸ decides.mpr allowed)

theorem InOrder.ofMutex {mutex : Mutex τ} (inOrder : InOrder mutex) (ticket : Ticket)
    (isNext : ticket.id = mutex.count) :
    ((mutex.granted ++ mutex.waiters) ++ [ticket]).Pairwise
        (fun first second => first.id < second.id) ∧
      (∀ other ∈ (mutex.granted ++ mutex.waiters) ++ [ticket], other.id < mutex.count + 1) ∧
      ∀ id < mutex.count + 1, ∃ other, other.id = id ∧
        (other ∈ (mutex.granted ++ mutex.waiters) ++ [ticket] ∨ other ∈ mutex.gone) := by
  refine ⟨?_, ?_, ?_⟩
  · refine List.pairwise_append.mpr ⟨inOrder.sorted, List.pairwise_singleton _ _, ?_⟩
    intro other member last isLast
    rw [List.mem_singleton.mp isLast, isNext]
    exact inOrder.bound other member
  · refine List.forall_mem_append.mpr ⟨fun other member => ?_, ?_⟩
    · exact (inOrder.bound other member).trans (Nat.lt_succ_self _)
    · exact List.forall_mem_singleton.mpr (isNext ▸ Nat.lt_succ_self _)
  · intro id below
    rcases Nat.lt_succ_iff_lt_or_eq.mp below with old | rfl
    · obtain ⟨other, isId, present | abandoned⟩ := inOrder.complete id old
      · exact ⟨other, isId, Or.inl (List.mem_append_left _ present)⟩
      · exact ⟨other, isId, Or.inr abandoned⟩
    · exact ⟨ticket, isNext, Or.inl (List.mem_append_right _ List.mem_cons_self)⟩

/-- A request that finds nobody waiting is granted at once. -/
theorem Sound.grantNow (sound : Sound self) (nobody : self.waiters = []) (shared notify : Bool)
    (allowed : Compatible (⟨self.count, shared, notify⟩ :: self.locked)) :
    Sound ({ self with count := self.count + 1 }.grant ⟨self.count, shared, notify⟩) := by
  obtain ⟨sorted, bound, complete⟩ := sound.toInOrder.ofMutex ⟨self.count, shared, notify⟩ rfl
  rw [nobody, List.append_nil] at sorted bound complete
  refine ⟨⟨?_, ?_, ?_, ?_⟩, allowed, ?_, sound.unlocking, fun ticket member =>
    List.mem_cons_of_mem _ (sound.held ticket member)⟩
  · simpa only [Mutex.grant, nobody, List.append_nil] using sorted
  · simpa only [Mutex.grant, nobody, List.append_nil] using bound
  · simpa only [Mutex.grant, nobody, List.append_nil] using complete
  · simp only [Mutex.grant]
    rw [filter_notify_append, sound.notified]
  · exact List.forall_mem_cons.mpr ⟨List.mem_append_right _ List.mem_cons_self,
      fun ticket member => List.mem_append_left _ (sound.owned ticket member)⟩

/-- A request joins the end of the queue. -/
theorem Sound.enqueue (sound : Sound self) (shared notify : Bool) :
    Sound
      { self with
        count := self.count + 1
        waiters := self.waiters ++ [⟨self.count, shared, notify⟩] } := by
  obtain ⟨sorted, bound, complete⟩ := sound.toInOrder.ofMutex ⟨self.count, shared, notify⟩ rfl
  rw [List.append_assoc] at sorted bound complete
  exact ⟨⟨sorted, bound, complete, sound.notified⟩, sound.compatible, sound.owned,
    sound.unlocking, sound.held⟩

theorem lockImpl_served (sound : Sound self) {l : LatchType}
    (isWord : l = word (weight self.locked))
    (room : self.locked.length + self.waiters.length + 1 < 2 ^ 28) (shared notify : Bool) :
    Served self (self.lockImpl shared notify l).1 (self.lockImpl shared notify l).2 := by
  obtain ⟨served, count, fits⟩ := notifyLoop_served self.waiters sound isWord (by omega)
  unfold Mutex.lockImpl Mutex.notifyLocked
  generalize Mutex.notifyLoop self.waiters self l = after at served count fits
  obtain ⟨after, l⟩ := after
  obtain ⟨⟨latch, pc, unlocking⟩, soundAfter, blocked, wordAfter⟩ := served
  have decides := soundAfter.compatible.allow_iff
    (show after.locked.length < 2 ^ 28 by dsimp only at fits; omega) ⟨self.count, shared, notify⟩
  dsimp only at *
  rw [← count] at decides ⊢
  subst wordAfter
  split
  · rename_i now
    have granted := soundAfter.grantNow now.1 shared notify (decides.mp now.2)
    refine ⟨⟨latch, pc, unlocking⟩, granted, ?_, ?_⟩
    · intro fw rest waits
      exact absurd (now.1.symm.trans waits).symm (List.cons_ne_nil fw rest)
    · rw [lockBits_eq, word_add]
      exact congrArg word (weight_cons ⟨after.count, shared, notify⟩ after.locked).symm
  · rename_i later
    refine ⟨⟨latch, pc, unlocking⟩, soundAfter.enqueue shared notify, ?_, rfl⟩
    intro fw rest waits
    dsimp only at waits
    cases waiting : after.waiters with
    | nil =>
        rw [waiting] at waits
        obtain ⟨rfl, -⟩ := List.cons.inj waits
        exact fun allowed => later ⟨waiting, decides.mpr allowed⟩
    | cons first others =>
        rw [waiting] at waits
        obtain ⟨rfl, -⟩ := List.cons.inj waits
        exact blocked first others waiting

/-- A lock is released. -/
theorem Sound.release (sound : Sound self) (ticket : Ticket) :
    Sound
      { self with
        locked := self.locked.erase ticket
        unlocking := self.unlocking.erase ticket } where
  toInOrder := sound.toInOrder.frame rfl rfl rfl rfl rfl
  compatible := sound.compatible.erase ticket
  owned := fun other member => sound.owned other (List.mem_of_mem_erase member)
  unlocking := sound.unlocking.erase ticket
  held := by
    intro other member
    have parts := (List.Nodup.mem_erase_iff sound.unlocking).mp member
    exact (List.mem_erase_of_ne parts.1).mpr (sound.held other parts.2)

theorem word_release (sound : Sound self) {ticket : Ticket} (releasing : ticket ∈ self.unlocking)
    (waiting : Nat) :
    word (weight self.locked + waiting) - Mutex.lockBits ticket.shared =
      word (weight (self.locked.erase ticket) + waiting) := by
  rw [weight_erase (sound.held ticket releasing), lockBits_eq, Nat.add_right_comm, word_add_sub]

theorem unlockImpl_served (sound : Sound self) {l : LatchType}
    (isWord : l = word (weight self.locked))
    (room : self.locked.length + self.waiters.length + 1 < 2 ^ 28) {ticket : Ticket}
    (releasing : ticket ∈ self.unlocking) :
    ∃ released, Served released (self.unlockImpl ticket l).1 (self.unlockImpl ticket l).2 ∧
      released.latch = self.latch ∧ released.pc = self.pc ∧
      released.unlocking = self.unlocking.erase ticket := by
  have released := word_release sound releasing 0
  rw [Nat.add_zero, Nat.add_zero, ← isWord] at released
  have fewer : (self.locked.erase ticket).length ≤ self.locked.length :=
    (List.erase_sublist).length_le
  refine ⟨_, (notifyLoop_served self.waiters (sound.release ticket) released ?_).1,
    rfl, rfl, rfl⟩
  dsimp only
  omega

end Notify

end DoomDraft.Cotamer
