import DoomDraft.Paxos.Execution

/-!
# Requests that wait for an answer

A leader keeps the serials of the requests it has admitted, the queue of those
it has not logged yet and the slots of those it has logged and not executed.
The three containers account for each other between handlers, so that no serial
is remembered for a request that the leader has lost sight of.
-/

namespace DoomDraft.Paxos

open Pancy Consensus

variable {n : Nat}

/-- The serials of the queued requests. -/
def Replica.queued (self : Replica n) : List Nat :=
  self.pendingClientRequests.map Request.serial

/-- No request waits for an answer. -/
structure Idle (replica : Replica n) : Prop where
  requests : replica.pendingClientRequests = []
  clients : ∀ serial, replica.pendingClients serial = none
  serials : replica.pendingClientSerials = ∅

/-- The containers of waiting requests account for each other: every admitted
serial is queued or logged and not both, a queued serial is queued once, a
logged one is at its slot beyond the executed part of the log, only a leader
has waiting requests, and a queue has a deadline. -/
structure Booked (replica : Replica n) : Prop where
  admitted : ∀ serial, serial ∈ replica.pendingClientSerials ↔
    serial ∈ replica.queued ∨ (replica.pendingClients serial).isSome
  disjoint : ∀ serial ∈ replica.queued, replica.pendingClients serial = none
  once : replica.queued.Nodup
  logged : ∀ serial slot, replica.pendingClients serial = some slot →
    replica.lastApplied < slot ∧ slot ≤ replica.lastLogIndex ∧
      ∃ entry, replica.log.find? slot = some entry ∧ entry.req.serial = serial ∧
        entry.round = replica.currentRound
  idle : replica.role ≠ .leader → Idle replica
  deadline : replica.pendingClientRequests ≠ [] → replica.clientBatchDeadline ≠ none

theorem Idle.booked {self : Replica n} (idle : Idle self) : Booked self where
  admitted serial := by simp [Replica.queued, idle.requests, idle.clients, idle.serials]
  disjoint serial _ := idle.clients serial
  once := by simp [Replica.queued, idle.requests]
  logged serial slot waiting := by
    rw [idle.clients serial] at waiting
    contradiction
  idle _ := idle
  deadline queue := absurd idle.requests queue

/-- The watermarks of a log are in order and within it. -/
structure Bounded (replica : Replica n) : Prop where
  keys : ∀ slot entry, replica.log.find? slot = some entry → slot < replica.nextSlot
  trimmed : replica.trimThrough ≤ replica.lastApplied
  applied : replica.lastApplied ≤ replica.commitIndex
  committed : replica.commitIndex < replica.nextSlot

theorem Settled.bounded {a : Abstract n} {history : Trace n} {j : Fin n} {self : Replica n}
    (settled : Settled j a history self) : Bounded self := by
  have holds := settled.1.log
  have nextEq := holds.nextSlot
  refine ⟨?_, holds.trimmed, holds.applied, ?_⟩
  · intro slot entry found
    obtain ⟨-, source, sourceFound, -⟩ := holds.entryAt_of_find found
    have := (entryAt_bounds sourceFound).2
    omega
  · have := holds.committed
    omega

/-- What holds of a replica inside the handlers of a leader. -/
structure Tidy (replica : Replica n) : Prop extends Bounded replica, Booked replica

/-! ## Log maintenance -/

section Maintenance

variable {self : Replica n}

@[simp]
theorem Outcome.fst_andThen (outcome : Outcome n) (next : Replica n → Outcome n) :
    (outcome.andThen next).1 = (next outcome.1).1 :=
  rfl

/-- What holds after a handler and is kept by the next one. -/
theorem Outcome.andThen_fst {P : Replica n → Prop} {outcome : Outcome n}
    {next : Replica n → Outcome n} (holds : P outcome.1)
    (kept : ∀ self, P self → P (next self).1) : P (outcome.andThen next).1 :=
  kept outcome.1 holds

theorem Outcome.forEach_fst {α : Type} {P : Replica n → Prop}
    {handler : Replica n → α → Outcome n}
    (each : ∀ self item, P self → P (handler self item).1) (items : List α) {self : Replica n}
    (holds : P self) : P (Outcome.forEach handler items self).1 := by
  induction items generalizing self with
  | nil => exact holds
  | cons item rest ih => exact ih (each self item holds)

/-- Trimming erases entries up to the trim point only, and changes nothing else
but the trim round. -/
theorem Replica.trimLoop_fst (fuel : Nat) (self : Replica n) :
    ∃ log round, (Replica.trimLoop fuel self).1 = { self with log := log, trimRound := round } ∧
      (∀ slot entry, log.find? slot = some entry → self.log.find? slot = some entry) ∧
      ∀ slot, self.trimThrough < slot → log.find? slot = self.log.find? slot := by
  induction fuel generalizing self with
  | zero => exact ⟨_, _, rfl, fun _ _ => id, fun _ _ => rfl⟩
  | succ fuel ih =>
      unfold Replica.trimLoop
      split
      · exact ⟨_, _, rfl, fun _ _ => id, fun _ _ => rfl⟩
      · rename_i first entry found
        split
        · rename_i within
          obtain ⟨log, round, after, sub, kept⟩ :=
            ih { self with trimRound := entry.round, log := self.log.eraseFirst }
          refine ⟨log, round, after, ?_, ?_⟩
          · intro slot other otherFound
            have old := sub slot other otherFound
            dsimp only at old
            rw [OrderedMap.find?_eraseFirst found] at old
            split at old
            · contradiction
            · exact old
          · intro slot above
            rw [kept slot above]
            dsimp only
            rw [OrderedMap.find?_eraseFirst found, if_neg (by omega)]
        · exact ⟨_, _, rfl, fun _ _ => id, fun _ _ => rfl⟩

theorem Tidy.trimLogPrefix (tidy : Tidy self) : Tidy self.trimLogPrefix.1 := by
  obtain ⟨log, round, after, sub, kept⟩ := Replica.trimLoop_fst self.log.entries.length self
  rw [Replica.trimLogPrefix, after]
  refine { tidy with keys := ?_, logged := ?_, idle := ?_ }
  · exact fun slot entry found => tidy.keys slot entry (sub slot entry found)
  · intro serial slot waiting
    obtain ⟨beyond, within, entry, found, facts⟩ := tidy.logged serial slot waiting
    refine ⟨beyond, within, entry, ?_, facts⟩
    dsimp only
    rw [kept slot (tidy.trimmed.trans_lt beyond), found]
  · exact fun notLeader => { tidy.idle notLeader with }

theorem Idle.trimLogPrefix (idle : Idle self) : Idle self.trimLogPrefix.1 := by
  obtain ⟨log, round, after, -⟩ := Replica.trimLoop_fst self.log.entries.length self
  rw [Replica.trimLogPrefix, after]
  exact { idle with }

/-- A logged request that waits is the one found at its slot. -/
theorem Booked.waiting_of_find {entry : LogEntry} {serial slot : Nat} (booked : Booked self)
    (found : self.log.find? slot = some entry) (waiting : self.pendingClients serial = some slot) :
    self.role = .leader ∧ serial = entry.req.serial := by
  obtain ⟨-, -, kept, keptFound, rfl, -⟩ := booked.logged serial slot waiting
  rw [found] at keptFound
  cases keptFound
  refine ⟨?_, rfl⟩
  by_contra notLeader
  rw [(booked.idle notLeader).clients] at waiting
  contradiction

/-- The requests that wait beyond the next slot still wait when it is passed. -/
theorem Booked.logged_of_ne (booked : Booked self) {serial slot : Nat}
    (waiting : self.pendingClients serial = some slot) (other : slot ≠ self.lastApplied + 1) :
    self.lastApplied + 1 < slot ∧ slot ≤ self.lastLogIndex ∧
      ∃ entry, self.log.find? slot = some entry ∧ entry.req.serial = serial ∧
        entry.round = self.currentRound := by
  obtain ⟨beyond, within⟩ := booked.logged serial slot waiting
  exact ⟨by omega, within⟩

theorem Tidy.applyNext (tidy : Tidy self) (behind : self.lastApplied < self.commitIndex) :
    Tidy self.applyNext.1 := by
  have trimmed := tidy.trimmed
  cases found : self.log.find? (self.lastApplied + 1) with
  | none =>
      have skipped : self.applyNext = ({ self with lastApplied := self.lastApplied + 1 }, []) := by
        simp only [Replica.applyNext, found]
      rw [skipped]
      refine { tidy with
        trimmed := trimmed.trans (Nat.le_succ _), applied := behind, logged := ?_, idle := ?_ }
      · intro serial slot waiting
        refine tidy.logged_of_ne waiting ?_
        rintro rfl
        obtain ⟨-, -, entry, present, -⟩ := tidy.logged serial _ waiting
        rw [found] at present
        contradiction
      · exact fun notLeader => { tidy.idle notLeader with }
  | some entry =>
      rw [Replica.applyNext_eq found]
      split
      · rename_i answered
        have unqueued : entry.req.serial ∉ self.queued := by
          intro queued
          rw [tidy.disjoint _ queued] at answered
          simp at answered
        refine { tidy with
          trimmed := trimmed.trans (Nat.le_succ _), applied := behind
          admitted := ?_, disjoint := ?_, logged := ?_, idle := ?_ }
        · intro serial
          dsimp only
          rw [Finset.mem_erase, tidy.admitted]
          by_cases same : serial = entry.req.serial
          · subst same
            simp [Replica.queued] at unqueued
            simpa [Replica.queued, Replica.executing] using unqueued
          · simp [same, Replica.queued, Replica.executing]
        · intro serial queued
          by_cases same : serial = entry.req.serial
          · exact absurd (same ▸ queued) unqueued
          · simp only [Function.update_of_ne same]
            exact tidy.disjoint serial queued
        · intro serial slot waiting
          by_cases same : serial = entry.req.serial
          · simp [same] at waiting
          · simp only [Function.update_of_ne same] at waiting
            refine tidy.logged_of_ne waiting ?_
            rintro rfl
            exact same (tidy.waiting_of_find found waiting).2
        · exact fun notLeader => absurd answered.1 notLeader
      · rename_i unanswered
        refine { tidy with
          trimmed := trimmed.trans (Nat.le_succ _), applied := behind, logged := ?_, idle := ?_ }
        · intro serial slot waiting
          refine tidy.logged_of_ne waiting ?_
          rintro rfl
          obtain ⟨leader, rfl⟩ := tidy.waiting_of_find found waiting
          exact unanswered ⟨leader, waiting⟩
        · exact fun notLeader => { tidy.idle notLeader with }

theorem Replica.applyNext_commitIndex (self : Replica n) :
    self.applyNext.1.commitIndex = self.commitIndex ∧
      self.applyNext.1.lastApplied = self.lastApplied + 1 := by
  cases found : self.log.find? (self.lastApplied + 1) with
  | none => simp [Replica.applyNext, found]
  | some entry =>
      rw [Replica.applyNext_eq found]
      split <;> exact ⟨rfl, rfl⟩

theorem Tidy.applyLoop (tidy : Tidy self) (count : Nat)
    (behind : self.lastApplied + count ≤ self.commitIndex) :
    Tidy (Replica.applyLoop count self).1 ∧
      (Replica.applyLoop count self).1.lastApplied = self.lastApplied + count ∧
      (Replica.applyLoop count self).1.commitIndex = self.commitIndex := by
  induction count generalizing self with
  | zero => exact ⟨tidy, rfl, rfl⟩
  | succ count ih =>
      obtain ⟨commitEq, appliedEq⟩ := self.applyNext_commitIndex
      obtain ⟨tidyNext, appliedNext, commitNext⟩ := ih (tidy.applyNext (by omega)) (by omega)
      exact ⟨tidyNext, appliedNext.trans (by omega), commitNext.trans commitEq⟩

theorem Tidy.applyCommittedEntries (tidy : Tidy self) :
    Tidy self.applyCommittedEntries.1 ∧
      self.applyCommittedEntries.1.lastApplied = self.applyCommittedEntries.1.commitIndex := by
  have applied := tidy.applied
  obtain ⟨tidyNext, appliedEq, commitEq⟩ :=
    tidy.applyLoop (self.commitIndex - self.lastApplied) (by omega)
  refine ⟨tidyNext.trimLogPrefix, ?_⟩
  obtain ⟨log, round, after, -⟩ := Replica.trimLoop_fst
    (Replica.applyLoop (self.commitIndex - self.lastApplied) self).1.log.entries.length
    (Replica.applyLoop (self.commitIndex - self.lastApplied) self).1
  simp only [Replica.applyCommittedEntries, Outcome.andThen, Replica.trimLogPrefix, after]
  omega

theorem Tidy.updateCommitIndex (tidy : Tidy self) : Tidy self.updateCommitIndex.1 := by
  have applied := tidy.applied
  have committed := tidy.committed
  unfold Replica.updateCommitIndex
  split
  · exact tidy
  · split
    · exact tidy
    · rename_i idx found
      obtain ⟨above, within, -⟩ := Replica.commitScan_spec found
      have bound : idx < self.nextSlot := by
        unfold Replica.lastLogIndex at within
        omega
      refine { tidy with applied := applied.trans above.le, committed := bound, idle := ?_ }
      exact fun notLeader => { tidy.idle notLeader with }

theorem Tidy.updateTrimWatermark (tidy : Tidy self)
    (applied : self.lastApplied = self.commitIndex) : Tidy self.updateTrimWatermark.1 := by
  unfold Replica.updateTrimWatermark
  split
  · exact tidy
  · dsimp only
    generalize List.foldl _ _ _ = low
    have target : (if Replica.trimRetention < min low self.commitIndex then
        min low self.commitIndex - Replica.trimRetention else 0) ≤ self.commitIndex := by
      split <;> omega
    generalize (if Replica.trimRetention < min low self.commitIndex then
      min low self.commitIndex - Replica.trimRetention else 0) = goal at target ⊢
    split
    · refine Tidy.trimLogPrefix { tidy with trimmed := target.trans applied.ge, idle := ?_ }
      exact fun notLeader => { tidy.idle notLeader with }
    · exact tidy

end Maintenance

/-! ## A leader at work -/

section Leader

variable {self : Replica n}

theorem Replica.sendProposeTo_fst (self : Replica n) (peer : Fin n) :
    ∃ next, (self.sendProposeTo peer).1 = { self with nextIndex := next } := by
  unfold Replica.sendProposeTo
  split
  · exact ⟨self.nextIndex, rfl⟩
  · exact ⟨_, rfl⟩

theorem Tidy.withPeers (tidy : Tidy self) (matched next : Fin n → Nat) :
    Tidy { self with matchIndex := matched, nextIndex := next } :=
  { tidy with idle := fun notLeader => { tidy.idle notLeader with } }

theorem Tidy.sendProposeTo (tidy : Tidy self) (peer : Fin n) :
    Tidy (self.sendProposeTo peer).1 := by
  obtain ⟨next, after⟩ := self.sendProposeTo_fst peer
  rw [after]
  exact tidy.withPeers self.matchIndex next

theorem Tidy.broadcastPropose (tidy : Tidy self) : Tidy self.broadcastPropose.1 := by
  refine Outcome.forEach_fst ?_ _ tidy
  intro current peer tidyNow
  split
  · exact tidyNow.sendProposeTo peer
  · exact tidyNow

theorem Tidy.commitAndExecute (tidy : Tidy self) :
    Tidy ((self.updateCommitIndex.andThen Replica.applyCommittedEntries).andThen
      Replica.updateTrimWatermark).1 := by
  obtain ⟨executed, applied⟩ := tidy.updateCommitIndex.applyCommittedEntries
  rw [Outcome.fst_andThen, Outcome.fst_andThen]
  exact executed.updateTrimWatermark applied

/-- Logging the first queued request moves its serial from the queue to the
slots. -/
theorem Tidy.logRequest {req : Request} {rest : List Request} (tidy : Tidy self)
    (queue : self.pendingClientRequests = req :: rest) :
    Tidy
      { self with
        pendingClientRequests := rest
        nextSlot := self.nextSlot + 1
        log := self.log.emplace self.nextSlot ⟨self.nextSlot, self.currentRound, req⟩
        pendingClients :=
          if (self.pendingClients req.serial).isSome then self.pendingClients
          else Function.update self.pendingClients req.serial (some self.nextSlot) } := by
  have queuedEq : self.queued = req.serial :: rest.map Request.serial := by
    rw [Replica.queued, queue, List.map_cons]
  have once := tidy.once
  rw [queuedEq, List.nodup_cons] at once
  have fresh : self.pendingClients req.serial = none :=
    tidy.disjoint _ (queuedEq ▸ List.mem_cons_self)
  have missing : self.log.find? self.nextSlot = none := by
    cases found : self.log.find? self.nextSlot with
    | none => rfl
    | some entry => exact absurd (tidy.keys _ _ found) (lt_irrefl _)
  have find : ∀ slot, (self.log.emplace self.nextSlot
      ⟨self.nextSlot, self.currentRound, req⟩).find? slot =
        if slot = self.nextSlot then some ⟨self.nextSlot, self.currentRound, req⟩
        else self.log.find? slot := by
    intro slot
    rw [OrderedMap.find?_emplace, missing, Option.getD_none]
  have bounds := tidy.committed
  have applied := tidy.applied
  simp only [fresh, Option.isSome_none, Bool.false_eq_true, if_false]
  refine { tidy with
    keys := ?_, committed := bounds.trans (Nat.lt_succ_self _), admitted := ?_, disjoint := ?_
    once := once.2, logged := ?_, idle := ?_, deadline := ?_ }
  · intro slot entry found
    dsimp only at found ⊢
    rw [find] at found
    split at found
    · omega
    · exact (tidy.keys slot entry found).trans (Nat.lt_succ_self _)
  · intro serial
    dsimp only
    rw [tidy.admitted, queuedEq, List.mem_cons, Replica.queued]
    by_cases same : serial = req.serial
    · simp [same]
    · simp [same]
  · intro serial queued
    have other : serial ≠ req.serial := by
      rintro rfl
      exact once.1 queued
    simp only [Function.update_of_ne other]
    exact tidy.disjoint serial (queuedEq ▸ List.mem_cons_of_mem _ queued)
  · intro serial slot waiting
    by_cases same : serial = req.serial
    · subst same
      obtain rfl : self.nextSlot = slot := by simpa using waiting
      refine ⟨by dsimp only; omega, le_rfl, ⟨self.nextSlot, self.currentRound, req⟩, ?_, rfl, rfl⟩
      exact (find _).trans (if_pos rfl)
    · simp only [Function.update_of_ne same] at waiting
      obtain ⟨beyond, within, entry, found, facts⟩ := tidy.logged serial slot waiting
      have old := tidy.keys slot entry found
      refine ⟨beyond, ?_, entry, ?_, facts⟩
      · exact within.trans (Nat.pred_le_pred (Nat.le_succ _))
      · exact (find _).trans ((if_neg old.ne).trans found)
  · intro notLeader
    have noRequests := (tidy.idle notLeader).requests
    rw [queue] at noRequests
    contradiction
  · intro _
    exact tidy.deadline (by simp [queue])

theorem Tidy.appendRequests (tidy : Tidy self) (count : Nat) :
    Tidy (self.appendRequests count) := by
  induction count generalizing self with
  | zero => exact tidy
  | succ count ih =>
      unfold Replica.appendRequests
      split
      · exact tidy
      · rename_i req rest queue
        exact ih (tidy.logRequest queue)

theorem Tidy.flushBatch (tidy : Tidy self) : Tidy self.flushBatch.1 :=
  ((tidy.appendRequests _).withPeers _ _).broadcastPropose.commitAndExecute

theorem Tidy.flushLoop (tidy : Tidy self) (fuel : Nat) : Tidy (Replica.flushLoop fuel self).1 := by
  induction fuel generalizing self with
  | zero => exact tidy
  | succ fuel ih =>
      unfold Replica.flushLoop
      split
      · exact ih tidy.flushBatch
      · exact tidy

theorem Booked.withDeadline (booked : Booked self) {deadline : Option Nat}
    (set : self.pendingClientRequests ≠ [] → deadline ≠ none) :
    Booked { self with clientBatchDeadline := deadline } :=
  { booked with deadline := set, idle := fun notLeader => { booked.idle notLeader with } }

theorem Tidy.flushPendingClientRequests (tidy : Tidy self) (now : Nat) :
    Booked (self.flushPendingClientRequests now).1 := by
  unfold Replica.flushPendingClientRequests
  split
  · rename_i nothing
    refine tidy.toBooked.withDeadline fun queue => ?_
    rcases nothing with notLeader | empty
    · exact absurd (tidy.idle notLeader).requests queue
    · exact absurd empty queue
  · have flushed := (tidy.flushLoop self.pendingClientRequests.length).toBooked
    simp only [Outcome.andThen]
    split
    · rename_i empty
      exact flushed.withDeadline fun queue => absurd empty queue
    · exact flushed.withDeadline fun _ => by simp

theorem Tidy.advancePeer (tidy : Tidy self) (msg : AckMessage n) :
    Tidy (self.advancePeer msg).1 := by
  unfold Replica.advancePeer
  refine Outcome.andThen_fst (P := Tidy) ?_ ?_
  · exact (tidy.withPeers _ _).commitAndExecute
  · intro executed tidyNow
    split
    · exact tidyNow.sendProposeTo msg.server
    · exact tidyNow

theorem Tidy.backOffPeer (tidy : Tidy self) (msg : AckMessage n) :
    Tidy (self.backOffPeer msg).1 :=
  (tidy.withPeers self.matchIndex _).sendProposeTo msg.server

/-- Admitting a request queues its serial. -/
theorem Tidy.enqueue {req : Request} {deadline : Nat} (tidy : Tidy self)
    (leader : self.role = .leader) (fresh : req.serial ∉ self.pendingClientSerials) :
    Tidy
      { self with
        pendingClientSerials := insert req.serial self.pendingClientSerials
        pendingClientRequests := self.pendingClientRequests ++ [req]
        clientBatchDeadline := some deadline } := by
  rw [tidy.admitted, not_or, Bool.not_eq_true, Option.isSome_eq_false_iff,
    Option.isNone_iff_eq_none] at fresh
  obtain ⟨unqueued, unlogged⟩ := fresh
  have queuedEq : (self.pendingClientRequests ++ [req]).map Request.serial =
      self.queued ++ [req.serial] := by
    rw [List.map_append, Replica.queued]
    rfl
  refine { tidy with
    admitted := ?_, disjoint := ?_, once := ?_, idle := ?_, deadline := by simp }
  · intro serial
    dsimp only [Replica.queued]
    rw [queuedEq, Finset.mem_insert, tidy.admitted, List.mem_append, List.mem_singleton]
    tauto
  · intro serial queued
    dsimp only [Replica.queued] at queued
    rw [queuedEq, List.mem_append, List.mem_singleton] at queued
    rcases queued with old | rfl
    · exact tidy.disjoint serial old
    · exact unlogged
  · dsimp only [Replica.queued]
    rw [queuedEq]
    exact List.Nodup.append tidy.once (List.nodup_singleton _) (by simpa using unqueued)
  · exact fun notLeader => absurd leader notLeader

theorem Tidy.handleClientRequest (tidy : Tidy self) (now : Nat) (req : Request) :
    Booked (self.handleClientRequest now req).1 := by
  unfold Replica.handleClientRequest
  split
  · exact tidy.toBooked
  · rename_i leader
    rw [not_not] at leader
    split
    · exact tidy.toBooked
    · split
      · exact tidy.toBooked
      · rename_i fresh
        dsimp only
        split
        · exact (tidy.enqueue leader fresh).flushPendingClientRequests now
        · exact (tidy.enqueue leader fresh).toBooked

end Leader

/-! ## Followers and candidates -/

section Follower

variable {self : Replica n}

theorem idle_becomeFollower (self : Replica n) (round : Nat) (hint : Fin n) :
    Idle (self.becomeFollower round hint) :=
  ⟨rfl, fun _ => rfl, rfl⟩

theorem Idle.applyNext (idle : Idle self) : Idle self.applyNext.1 := by
  cases found : self.log.find? (self.lastApplied + 1) with
  | none =>
      simp only [Replica.applyNext, found]
      exact { idle with }
  | some entry =>
      rw [Replica.applyNext_eq found]
      split
      · rename_i answered
        rw [idle.clients] at answered
        simp at answered
      · exact { idle with }

theorem Idle.applyCommittedEntries (idle : Idle self) : Idle self.applyCommittedEntries.1 := by
  have loop : ∀ count (current : Replica n), Idle current →
      Idle (Replica.applyLoop count current).1 := by
    intro count
    induction count with
    | zero => exact fun _ idleNow => idleNow
    | succ count ih => exact fun _ idleNow => ih _ idleNow.applyNext
  exact Outcome.andThen_fst (loop _ self idle) fun _ => Idle.trimLogPrefix

/-- The replica at the end of the entry loop of `handle_propose`. -/
def Replica.AppendResult.replica : Replica.AppendResult n → Replica n
  | .done self _ => self
  | .refused self _ => self

/-- The entry loop of `handle_propose` changes the log and its end only. -/
theorem Replica.appendEntries_replica (self : Replica n) (matchIndex : Nat)
    (entries : List LogEntry) :
    ∃ log next, (self.appendEntries matchIndex entries).replica =
      { self with log := log, nextSlot := next } := by
  induction entries generalizing self matchIndex with
  | nil => exact ⟨_, _, rfl⟩
  | cons entry rest ih =>
      unfold Replica.appendEntries
      split
      · exact ih self entry.slot
      · split
        · exact ⟨_, _, rfl⟩
        · have dropped : ∃ log next, self.dropConflict entry =
              { self with log := log, nextSlot := next } := by
            unfold Replica.dropConflict
            split
            · split <;> exact ⟨_, _, rfl⟩
            · exact ⟨_, _, rfl⟩
          obtain ⟨log, next, droppedEq⟩ := dropped
          rw [droppedEq]
          dsimp only
          split
          · exact ih _ entry.slot
          · exact ih _ entry.slot

theorem Idle.acceptBatch (idle : Idle self) (msg : ProposeMessage n) (matchIndex : Nat) :
    Idle (self.acceptBatch msg matchIndex).1 := by
  refine Outcome.andThen_fst (Outcome.andThen_fst (P := Idle) ?_ ?_) fun _ => id
  · apply Idle.applyCommittedEntries
    split
    · exact { idle with }
    · exact idle
  · intro executed idleNow
    split
    · exact Idle.trimLogPrefix { idleNow with }
    · exact idleNow

theorem Booked.handlePropose (booked : Booked self) (msg : ProposeMessage n) :
    Booked (self.handlePropose msg).1 := by
  unfold Replica.handlePropose
  split
  · exact booked
  · have follower := idle_becomeFollower self msg.round msg.leader
    dsimp only
    split
    · exact follower.booked
    · obtain ⟨log, next, appended⟩ := (self.becomeFollower msg.round
        msg.leader).appendEntries_replica msg.prevLogIndex msg.entries
      have idle : Idle ((self.becomeFollower msg.round msg.leader).appendEntries
          msg.prevLogIndex msg.entries).replica := by
        rw [appended]
        exact { follower with }
      split
      · rename_i after slot result
        rw [result] at idle
        exact idle.booked
      · rename_i after matched result
        rw [result] at idle
        exact (idle.acceptBatch msg matched).booked

theorem Booked.handleProbe (booked : Booked self) (msg : ProbeMessage n) :
    Booked (self.handleProbe msg).1 := by
  have promise : ∀ (current : Replica n) (c : Fin n), Booked current →
      Booked { current with promisedLeader := some c, leaderIndex := c } :=
    fun current c bookedNow =>
      { bookedNow with idle := fun notLeader => { bookedNow.idle notLeader with } }
  unfold Replica.handleProbe
  split
  · exact booked
  · have current : Booked (if self.currentRound < msg.round then
        self.becomeFollower msg.round self.leaderIndex else self) := by
      split
      · exact (idle_becomeFollower _ _ _).booked
      · exact booked
    dsimp only
    generalize (if self.currentRound < msg.round then
      self.becomeFollower msg.round self.leaderIndex else self) = now at current ⊢
    split
    · exact promise _ _ current
    · exact current

/-- A candidate takes office with nothing to answer. -/
theorem Idle.becomeLeader (idle : Idle self) (bounded : Bounded self) :
    Tidy self.becomeLeader :=
  { bounded with toBooked := Idle.booked { idle with } }

theorem Tidy.handlePrepare (tidy : Tidy self) (msg : PrepareMessage n) :
    Booked (self.handlePrepare msg).1 := by
  unfold Replica.handlePrepare
  split
  · exact (idle_becomeFollower _ _ _).booked
  · split
    · exact tidy.toBooked
    · rename_i counts
      have candidate : self.role = .candidate := by
        by_contra other
        exact counts (Or.inl other)
      have idle := tidy.idle (by simp [candidate])
      dsimp only
      split
      · exact (Idle.becomeLeader { idle with } { tidy.toBounded with }).broadcastPropose.toBooked
      · exact Idle.booked { idle with }

theorem Tidy.handleAck (tidy : Tidy self) (msg : AckMessage n) :
    Booked (self.handleAck msg).1 := by
  unfold Replica.handleAck
  split
  · exact (idle_becomeFollower _ _ _).booked
  · split
    · exact tidy.toBooked
    · split
      · exact (tidy.advancePeer msg).toBooked
      · exact (tidy.backOffPeer msg).toBooked

theorem Tidy.startProbeRound (tidy : Tidy self) (notLeader : self.role ≠ .leader) :
    Booked self.startProbeRound.1 := by
  have idle := tidy.idle notLeader
  unfold Replica.startProbeRound
  dsimp only [Outcome.andThen]
  split
  · refine (Tidy.broadcastPropose (Idle.becomeLeader ?_ ?_)).toBooked
    · exact { idle with }
    · exact { tidy.toBounded with }
  · exact Idle.booked { idle with }

end Follower

/-! ## Every run -/

theorem System.Handled.booked {careful : Prop} {a : Abstract n} {s : System n} {i : Fin n}
    {outcome : Outcome n} (handled : s.Handled i outcome) (implements : Implements careful a s)
    (booked : ∀ j, Booked (s.replicas j)) : Booked outcome.1 := by
  have tidy : ∀ j, Tidy (s.replicas j) := fun j =>
    { (implements.settled j).bounded with toBooked := booked j }
  cases handled with
  | message packet inFlight =>
      cases packet.msg with
      | probe msg => exact (booked _).handleProbe msg
      | prepare msg => exact (tidy _).handlePrepare msg
      | propose msg => exact (booked _).handlePropose msg
      | ack msg => exact (tidy _).handleAck msg
  | request i now req => exact (tidy i).handleClientRequest now req
  | flush i now leader => exact (tidy i).flushPendingClientRequests now
  | heartbeat i leader => exact (tidy i).broadcastPropose.toBooked
  | electionTimeout i notLeader => exact (tidy i).startProbeRound notLeader

theorem booked_initial (initialLeader j : Fin n) :
    Booked ((System.initial initialLeader).replicas j) := by
  refine Idle.booked ?_
  simp only [System.initial, Replica.initializeWith]
  split <;> exact ⟨rfl, fun _ => rfl, rfl⟩

theorem Implements.booked_step {a : Abstract n} {s t : System n} {action : Action n}
    (implements : Implements False a s) (booked : ∀ j, Booked (s.replicas j))
    (stepped : s.step action = some t) : ∀ j, Booked (t.replicas j) := by
  rcases System.step_cases stepped with ⟨i, network, outcome, handled, -, rfl⟩ | ⟨network, -, rfl⟩
  · intro j
    simp only [System.record]
    by_cases same : j = i
    · subst same
      rw [Function.update_self]
      exact handled.booked implements booked
    · rw [Function.update_of_ne same]
      exact booked j
  · exact booked

theorem booked_of_perform {initialLeader : Fin n} {actions : List (Action n)} {s : System n}
    (run : (System.initial initialLeader).perform actions = some s) :
    ∀ j, Booked (s.replicas j) := by
  refine (Transition.perform_invariant
    (P := fun state => (∃ a, Implements False a state) ∧ ∀ j, Booked (state.replicas j))
    ?_ ⟨⟨_, implements_initial initialLeader⟩, booked_initial initialLeader⟩ run).2
  rintro state action next ⟨⟨a, implements⟩, booked⟩ stepped
  obtain ⟨b, implementsB, -⟩ := implements.step False.elim stepped
  exact ⟨⟨b, implementsB⟩, implements.booked_step booked stepped⟩

/-- In every run, on every replica and between handlers, the containers of
waiting requests account for each other. -/
theorem pending_bookkeeping {initialLeader : Fin n} {actions : List (Action n)} {s : System n}
    (run : (System.initial initialLeader).perform actions = some s) (j : Fin n) :
    Booked (s.replicas j) :=
  booked_of_perform run j

/-- The leader logs a write and then admits another one. -/
def waitingWrites : List (Action 3) :=
  [.request 0 0 (writeOf 0), .flush 0 0, .request 0 1 (writeOf 1)]

theorem pending_bookkeeping_waitingWrites : ∃ s : System 3,
    (System.initial 0).perform waitingWrites = some s ∧
      (s.replicas 0).pendingClientSerials = {0, 1} ∧ (s.replicas 0).queued = [1] ∧
      (s.replicas 0).pendingClients 0 = some 1 ∧ Booked (s.replicas 0) := by
  have facts : ((System.initial 0).perform waitingWrites).any (fun s =>
      (s.replicas 0).pendingClientSerials = {0, 1} ∧ (s.replicas 0).queued = [1] ∧
        (s.replicas 0).pendingClients 0 = some 1) = true := by
    decide +kernel
  obtain ⟨s, run, waiting⟩ := (Option.any_eq_true _ _).mp facts
  obtain ⟨serials, queued, logged⟩ := of_decide_eq_true waiting
  exact ⟨s, run, serials, queued, logged, pending_bookkeeping run 0⟩

end DoomDraft.Paxos
