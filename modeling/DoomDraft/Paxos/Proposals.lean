import DoomDraft.Paxos.Simulation

/-!
# A leader at work

Specifications of the functions that only a leader runs: proposing to its
peers, committing and executing what a quorum holds, and logging the queued
client requests.
-/

namespace DoomDraft.Paxos

open Pancy Consensus

variable {n : Nat}

/-- Between handlers a replica has executed everything it has committed. -/
def Settled (j : Fin n) (a : Abstract n) (history : Trace n) (self : Replica n) : Prop :=
  Refines a history j self ∧ self.lastApplied = self.commitIndex

/-- A leader between the functions that it runs. -/
def Presiding (j : Fin n) (a : Abstract n) (history : Trace n) (self : Replica n) : Prop :=
  Settled j a history self ∧ self.role = .leader

/-- A batch is a run of consecutive slots. -/
theorem Replica.collectBatch_getElem? {room next i : Nat} {entries : List (Nat × LogEntry)}
    {entry : LogEntry} (found : (Replica.collectBatch room next entries)[i]? = some entry) :
    (next + i, entry) ∈ entries := by
  induction entries generalizing room next i with
  | nil => cases room <;> simp [Replica.collectBatch] at found
  | cons first rest ih =>
      obtain ⟨slot, kept⟩ := first
      cases room with
      | zero => simp [Replica.collectBatch] at found
      | succ room =>
          simp only [Replica.collectBatch] at found
          split at found
          · rename_i atNext
            subst atNext
            cases i with
            | zero =>
                simp only [List.getElem?_cons_zero, Option.some.injEq] at found
                subst found
                exact List.mem_cons_self
            | succ i =>
                have member := ih (List.getElem?_cons_succ ▸ found)
                rw [Nat.succ_add_eq_add_succ] at member
                exact List.mem_cons_of_mem _ member
          · simp at found

section Specifications

variable {careful : Prop} {a : Abstract n} {history : Trace n} {j : Fin n} {self : Replica n}

theorem Refines.log_eq_leaderLog (invariant : Invariant a) (refines : Refines a history j self)
    (leader : self.role = .leader) : a.log j = a.leaderLog self.currentRound := by
  have leads := refines.leads.mp leader
  rw [← refines.round] at leads ⊢
  exact invariant.logs.leads j leads

/-- A leader may move the point from which it sends to a peer within its log. -/
theorem Refines.withNextIndex (refines : Refines a history j self) (peer : Fin n) {next : Nat}
    (positive : 0 < next) (le : next ≤ self.lastLogIndex + 1) :
    Refines a history j { self with nextIndex := Function.update self.nextIndex peer next } := by
  refine { refines with
    log := { refines.log with }
    state := { refines.state with }
    next := ?_ }
  intro leader v
  by_cases same : v = peer
  · subst same
    simpa using ⟨positive, le⟩
  · simpa [same, Replica.lastLogIndex] using refines.next leader v

/-- The proposal of a leader reports its log. -/
theorem Refines.soundProposal (invariant : Invariant a) (refines : Refines a history j self)
    (leader : self.role = .leader) {peer : Fin n} {next : Nat} (other : peer ≠ self.index)
    (above : self.trimThrough < next) (le : next ≤ self.lastLogIndex + 1) :
    SoundMessage a history peer (.propose
      { round := self.currentRound
        leader := self.index
        prevLogIndex := next - 1
        prevLogRound := self.roundAt (next - 1)
        decideThrough := self.commitIndex
        trimThrough := self.trimThrough
        entries := Replica.collectBatch Replica.appendBatchSize next
          (self.log.lowerBound next) }) := by
  have holds := refines.log
  have logEq := refines.log_eq_leaderLog invariant leader
  refine ⟨other.symm, ?_, ?_, ?_, refines.decided, ?_⟩
  · rw [refines.index]
    exact refines.leads.mp leader
  · dsimp only
    rw [← logEq, ← holds.lastLogIndex]
    omega
  · dsimp only
    rw [← logEq, holds.roundAt (Nat.le_sub_one_of_lt above)]
  · intro i entry found
    have member := Replica.collectBatch_getElem? found
    obtain ⟨-, source, sourceFound, entryEq⟩ :=
      holds.entryAt_of_find (OrderedMap.mem_of_mem_lowerBound member)
    have slotEq : next - 1 + (i + 1) = next + i := by omega
    dsimp only at sourceFound ⊢
    rw [slotEq, ← logEq]
    exact ⟨source, sourceFound, entryEq⟩

theorem sendProposeTo_spec (invariant : Invariant a) (presiding : Presiding j a history self)
    (peer : Fin n) :
    Achieves careful a history j (self.sendProposeTo peer) (Presiding j) := by
  obtain ⟨⟨refines, applied⟩, leader⟩ := presiding
  unfold Replica.sendProposeTo
  split
  · exact Achieves.pure ⟨⟨refines, applied⟩, leader⟩
  · rename_i sends
    obtain ⟨other, -⟩ := not_or.mp sends
    obtain ⟨positive, le⟩ := refines.next leader peer
    have trimmed : self.trimThrough ≤ self.lastLogIndex := by
      rw [refines.log.lastLogIndex]
      exact refines.log.trimmed.trans (refines.log.applied.trans refines.log.committed)
    have bound : max (self.nextIndex peer) (self.trimThrough + 1) ≤ self.lastLogIndex + 1 := by
      omega
    have moved := refines.withNextIndex peer (lt_max_of_lt_left positive) bound
    refine (Achieves.emit invariant moved ?_ ?_).imp ?_
    · simp [Event.isQuiet]
    · intro event member
      obtain rfl := List.mem_singleton.mp member
      exact moved.soundProposal invariant leader other (by simp) bound
    · rintro b later after ⟨refinesB, rfl⟩
      exact ⟨⟨refinesB, applied⟩, leader⟩

theorem broadcastPropose_spec (invariant : Invariant a)
    (presiding : Presiding j a history self) :
    Achieves careful a history j self.broadcastPropose (Presiding j) := by
  refine Achieves.forEach ?_ invariant presiding
  intro b later current peer invariantB presidingB
  split
  · exact sendProposeTo_spec invariantB presidingB peer
  · exact Achieves.pure presidingB

/-- What a leader does whenever its match indices may have grown. -/
theorem commitAndExecute_spec (invariant : Invariant a)
    (presiding : Presiding j a history self) :
    Achieves careful a history j ((self.updateCommitIndex.andThen
      Replica.applyCommittedEntries).andThen Replica.updateTrimWatermark) (Presiding j) := by
  obtain ⟨⟨refines, -⟩, leader⟩ := presiding
  refine Achieves.andThen (Q := Presiding j) invariant ?_ ?_
  · refine (updateCommitIndex_spec invariant refines).andThen invariant ?_
    intro b later invariantB _ ⟨refinesB, roleEq⟩
    have stillLeader := roleEq.trans leader
    refine (applyCommittedEntries_spec invariantB refinesB fun _ slot above le => ?_).imp ?_
    · exact refinesB.vouched_of_leader invariantB stillLeader slot (Nat.zero_lt_of_lt above) le
    · intro c final after ⟨refinesC, steady, applied⟩
      exact ⟨⟨refinesC, applied⟩, steady.role.trans stillLeader⟩
  · intro b later invariantB _ ⟨⟨refinesB, appliedB⟩, leaderB⟩
    refine (updateTrimWatermark_spec invariantB refinesB appliedB).imp ?_
    intro c final after ⟨refinesC, steady, applied⟩
    exact ⟨⟨refinesC, applied⟩, steady.role.trans leaderB⟩

/-! ## Queued requests -/

theorem appendRequests_spec {count : Nat} (invariant : Invariant a)
    (presiding : Presiding j a history self) :
    ∃ b, Steps j a b ∧ Presiding j b history (self.appendRequests count) := by
  induction count generalizing a self with
  | zero => exact ⟨a, Relation.ReflTransGen.refl, presiding⟩
  | succ count ih =>
      unfold Replica.appendRequests
      split
      · exact ⟨a, Relation.ReflTransGen.refl, presiding⟩
      · rename_i req rest queued
        obtain ⟨⟨refines, applied⟩, leader⟩ := presiding
        obtain ⟨b, steps, logged⟩ := refines.logRequest invariant leader req
        obtain ⟨invariantB, -⟩ := invariant.steps steps
        obtain ⟨c, more, presidingC⟩ := ih invariantB
          ⟨⟨logged.withClients _ _ _ _, applied⟩, leader⟩
        exact ⟨c, steps.trans more, presidingC⟩

/-- A leader has matched its own log. -/
theorem Presiding.matchOwn (invariant : Invariant a) (presiding : Presiding j a history self) :
    Presiding j a history
      { self with
        matchIndex := Function.update self.matchIndex self.index self.lastLogIndex
        nextIndex := Function.update self.nextIndex self.index (self.lastLogIndex + 1) } := by
  obtain ⟨⟨refines, applied⟩, leader⟩ := presiding
  have moved := refines.withNextIndex self.index (Nat.succ_pos _) le_rfl
  refine ⟨⟨{ moved with
    log := { moved.log with }
    state := { moved.state with }
    matched := ?_ }, applied⟩, leader⟩
  intro _ v
  by_cases own : v = self.index
  · subst own
    have acked := invariant.logs.acked_leader _ _ (refines.leads.mp leader)
    rw [← refines.log_eq_leaderLog invariant leader, ← refines.log.lastLogIndex] at acked
    simp [refines.index, acked]
  · simpa [own] using refines.matched leader v

theorem flushBatch_spec (invariant : Invariant a) (presiding : Presiding j a history self) :
    Achieves careful a history j self.flushBatch (Presiding j) := by
  obtain ⟨b, steps, logged⟩ := appendRequests_spec invariant presiding
  obtain ⟨invariantB, -⟩ := invariant.steps steps
  refine Achieves.after steps ?_
  simp only [Replica.flushBatch, Outcome.andThen_assoc]
  refine (broadcastPropose_spec invariantB (logged.matchOwn invariantB)).andThen invariantB ?_
  intro c later invariantC _ presidingC
  rw [← Outcome.andThen_assoc]
  exact commitAndExecute_spec invariantC presidingC

theorem flushLoop_spec {fuel : Nat} (invariant : Invariant a)
    (presiding : Presiding j a history self) :
    Achieves careful a history j (Replica.flushLoop fuel self) (Presiding j) := by
  induction fuel generalizing a history self with
  | zero => exact Achieves.pure presiding
  | succ fuel ih =>
      unfold Replica.flushLoop
      split
      · refine (flushBatch_spec invariant presiding).andThen invariant ?_
        intro b later invariantB _ presidingB
        exact ih invariantB presidingB
      · exact Achieves.pure presiding

theorem Settled.withClients (settled : Settled j a history self) (clients : Nat → Option Nat)
    (requests : List Request) (serials : Finset Nat) (deadline : Option Nat) :
    Settled j a history
      { self with
        pendingClients := clients
        pendingClientRequests := requests
        pendingClientSerials := serials
        clientBatchDeadline := deadline } :=
  ⟨settled.1.withClients clients requests serials deadline, settled.2⟩

theorem flushPendingClientRequests_spec (invariant : Invariant a)
    (settled : Settled j a history self) (now : Nat) :
    Achieves careful a history j (self.flushPendingClientRequests now) (Settled j) := by
  unfold Replica.flushPendingClientRequests
  split
  · exact Achieves.pure (settled.withClients _ _ _ _)
  · rename_i flushes
    have leader : self.role = .leader := not_not.mp (not_or.mp flushes).1
    refine (flushLoop_spec invariant ⟨settled, leader⟩).andThen invariant ?_
    intro b later _ _ presidingB
    split
    · exact Achieves.pure (presidingB.1.withClients _ _ _ _)
    · exact Achieves.pure (presidingB.1.withClients _ _ _ _)

/-- `handle_client_request` answers from the cache only as leader. -/
theorem handleClientRequest_spec (invariant : Invariant a) (settled : Settled j a history self)
    (now : Nat) (req : Request) :
    Achieves careful a history j (self.handleClientRequest now req) (Settled j) := by
  have answer : ∀ resp, SoundEvent careful a history (.respond resp) →
      Achieves careful a history j (self, [.respond resp]) (Settled j) := by
    intro resp sound
    refine (Achieves.emit invariant settled.1 ?_ ?_).imp ?_
    · simp [Event.isQuiet]
    · intro event member
      obtain rfl := List.mem_singleton.mp member
      exact sound
    · rintro b later after ⟨refinesB, rfl⟩
      exact ⟨refinesB, settled.2⟩
  unfold Replica.handleClientRequest
  split
  · exact answer _ (Or.inl rfl)
  · rename_i isLeader
    split
    · rename_i resp cached
      exact answer resp (Or.inr (settled.1.soundResponse invariant (not_not.mp isLeader) cached))
    · split
      · exact Achieves.pure settled
      · have queued := settled.withClients self.pendingClients
          (self.pendingClientRequests ++ [req])
          (insert req.serial self.pendingClientSerials)
          (some (self.clientBatchDeadline.getD (now + Replica.clientBatchWindow)))
        dsimp only
        split
        · exact flushPendingClientRequests_spec invariant queued now
        · exact Achieves.pure queued

end Specifications

end DoomDraft.Paxos
