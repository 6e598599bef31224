import DoomDraft.Paxos.Maintenance

/-!
# Replica updates that match abstract steps

Each step of a node is matched by the update of its replica that some handler
makes: moving to a later round, standing for leader, promising a vote, taking
office, logging a request and adopting a batch.
-/

namespace DoomDraft.Paxos

open Pancy Consensus

variable {n : Nat} {a : Abstract n} {history : Trace n} {j : Fin n} {self : Replica n}

/-! ## Changing the end of a log -/

/-- Store one more entry at the end. -/
theorem HoldsLog.push {log : List (Entry Request)} (holds : HoldsLog self log)
    (entry : Entry Request) :
    HoldsLog
      { self with
        nextSlot := self.nextSlot + 1
        log := self.log.emplace self.nextSlot (stored self.nextSlot entry) }
      (log ++ [entry]) := by
  have nextEq := holds.nextSlot
  have trimmed := holds.trimmed.trans (holds.applied.trans holds.committed)
  have missing : self.log.find? self.nextSlot = none := by
    rw [holds.find]
    split
    · rw [nextEq]
      simp [entryAt]
    · rfl
  refine { holds with nextSlot := ?_, find := ?_, trimRound := ?_, committed := ?_ }
  · simp [nextEq]
  · intro slot
    dsimp only
    rw [OrderedMap.find?_emplace, missing, Option.getD_none, holds.find]
    by_cases atEnd : slot = self.nextSlot
    · have above : self.trimThrough < slot := by omega
      rw [if_pos atEnd, if_pos above, atEnd, nextEq]
      simp [entryAt]
    · rw [if_neg atEnd]
      split
      · rcases Nat.lt_or_ge log.length slot with beyond | within
        · rw [entryAt_eq_getElem? (by omega), entryAt_eq_getElem? (by omega),
            List.getElem?_eq_none (by omega), List.getElem?_eq_none]
          simp only [List.length_append, List.length_singleton]
          omega
        · rw [entryAt_append_of_le within]
      · rfl
  · intro positive
    rw [Consensus.roundAt, entryAt_append_of_le trimmed]
    exact holds.trimRound positive
  · have committed := holds.committed
    simp only [List.length_append, List.length_singleton]
    omega

/-- Drop the entries from `slot` on. -/
theorem HoldsLog.cut {log : List (Entry Request)} {slot : Nat} (holds : HoldsLog self log)
    (uncommitted : self.commitIndex < slot) (le : slot ≤ log.length) :
    HoldsLog { self with log := self.log.eraseFrom slot, nextSlot := slot }
      (log.take (slot - 1)) := by
  have lengthEq : (log.take (slot - 1)).length = slot - 1 := List.length_take_of_le (by omega)
  have trimmed := holds.trimmed.trans holds.applied
  refine { holds with nextSlot := ?_, find := ?_, trimRound := ?_, committed := ?_ }
  · dsimp only
    rw [lengthEq]
    omega
  · intro other
    dsimp only
    rw [OrderedMap.find?_eraseFrom, holds.find, entryAt_take]
    by_cases below : other < slot
    · rw [if_pos below, if_pos (show other ≤ slot - 1 by omega)]
    · rw [if_neg below, if_neg (show ¬ other ≤ slot - 1 by omega)]
      simp
  · intro positive
    rw [Consensus.roundAt, entryAt_take, if_pos (show self.trimThrough ≤ slot - 1 by omega)]
    exact holds.trimRound positive
  · rw [lengthEq]
    exact Nat.le_sub_one_of_lt uncommitted

/-- What has been executed does not depend on the uncommitted end of the log. -/
theorem HoldsState.congr {log next : List (Entry Request)} (state : HoldsState history j self log)
    (holds : HoldsLog self log)
    (same : ∀ slot ≤ self.commitIndex, entryAt log slot = entryAt next slot) :
    HoldsState history j self next := by
  have trimmed := holds.trimmed
  have applied := holds.applied
  have executedEq : storedThrough log self.lastApplied = storedThrough next self.lastApplied :=
    storedThrough_congr fun slot le => same slot (le.trans applied)
  refine ⟨executedEq ▸ state.executed, ?_, executedEq ▸ state.replayed⟩
  rw [state.discarded]
  exact storedThrough_congr fun slot le => same slot (le.trans (trimmed.trans applied))

/-! ## The updates -/

namespace Refines

theorem not_leads_later (refines : Refines a history j self) (ballots : Ballots a) {round : Nat}
    (later : self.currentRound < round) : a.leader round ≠ some j := by
  intro leads
  have early := ballots.leader_le round j leads
  rw [refines.round] at early
  omega

theorem no_vote_later (refines : Refines a history j self) (ballots : Ballots a) {round : Nat}
    (later : self.currentRound < round) : a.vote j round = none := by
  cases voted : a.vote j round with
  | none => rfl
  | some c =>
      have early := ballots.vote_le j round c voted
      rw [refines.round] at early
      omega

/-- `become_follower` in a later round, or in the current round of another
leader or of none. -/
theorem becomeFollower (invariant : Invariant a) (refines : Refines a history j self)
    {round : Nat} (hint : Fin n) (le : self.currentRound ≤ round)
    (notLeader : a.leader round ≠ some j) :
    ∃ b, Steps j a b ∧ b.leader = a.leader ∧ b.leaderLog = a.leaderLog ∧
      b.candidacy = a.candidacy ∧ b.log = a.log ∧
      Refines b history j (self.becomeFollower round hint) := by
  rcases Nat.lt_or_eq_of_le le with later | rfl
  · have step := Step.advance (s := a) (j := j) round (refines.round ▸ le)
    have extension := step.extends invariant.ballots invariant.logs
    refine ⟨_, Relation.ReflTransGen.single step, rfl, rfl, rfl, rfl, ?_⟩
    simp only [Replica.becomeFollower, if_pos later]
    refine { refines with
      round := ?_
      log := { refines.log with }
      state := { refines.state with }
      promised := refines.no_vote_later invariant.ballots later
      stands := ?_
      granted := ?_
      leads := ?_
      matched := ?_
      next := ?_
      decided := refines.decided.grow extension invariant.logs le }
    · simp
    · simp
    · simp
    · simpa using notLeader
    · simp
    · simp
  · refine ⟨a, Relation.ReflTransGen.refl, rfl, rfl, rfl, rfl, ?_⟩
    simp only [Replica.becomeFollower, lt_irrefl, if_false]
    refine { refines with
      log := { refines.log with }
      state := { refines.state with }
      stands := ?_
      granted := ?_
      leads := ?_
      matched := ?_
      next := ?_ }
    · simp
    · simp
    · simpa using notLeader
    · simp
    · simp

/-- The first part of `start_probe_round`. -/
theorem startProbe (invariant : Invariant a) (refines : Refines a history j self) :
    ∃ b, Steps j a b ∧ Refines b history j
      { self with
        role := .candidate
        currentRound := self.currentRound + 1
        leaderIndex := self.index
        promisedLeader := some self.index
        prepareOk := Function.update (fun _ => false) self.index true } := by
  have step := Step.stand (s := a) (j := j)
  have extension := step.extends invariant.ballots invariant.logs
  have notLeader := refines.not_leads_later invariant.ballots (Nat.lt_succ_self _)
  have roundEq := refines.round
  have indexEq := refines.index
  refine ⟨_, Relation.ReflTransGen.single step, ?_⟩
  refine { refines with
    round := ?_
    log := { refines.log with }
    state := { refines.state with }
    promised := ?_
    stands := ?_
    granted := ?_
    leads := ?_
    matched := ?_
    next := ?_
    decided := refines.decided.grow extension invariant.logs (Nat.le_succ _) }
  · simp [roundEq]
  · simp [record, roundEq, indexEq]
  · simp [record, roundEq]
  · intro _ v ok
    obtain rfl : v = self.index := by
      by_contra other
      simp [Function.update_of_ne other] at ok
    simp [record, roundEq, indexEq]
  · simpa using notLeader
  · simp
  · simp

/-- The promise of `handle_probe`. -/
theorem promise (invariant : Invariant a) (refines : Refines a history j self) {c : Fin n}
    {candidate : List (Entry Request)} (free : self.promisedLeader = none)
    (stands : a.candidacy c self.currentRound = some candidate)
    (upToDate : UpToDate candidate (a.log j)) :
    ∃ b, Steps j a b ∧ Refines b history j
      { self with promisedLeader := some c, leaderIndex := c } := by
  have roundEq := refines.round
  have promised := refines.promised
  rw [free, ← roundEq] at promised
  have step := Step.grant c candidate promised (roundEq ▸ stands) upToDate
  have extension := step.extends invariant.ballots invariant.logs
  refine ⟨_, Relation.ReflTransGen.single step, ?_⟩
  refine { refines with
    log := { refines.log with }
    state := { refines.state with }
    promised := ?_
    granted := fun standing v ok => extension.vote v _ j (refines.granted standing v ok)
    decided := refines.decided.grow extension invariant.logs le_rfl }
  simp [record, roundEq]

/-- `become_leader` with the promises of a quorum. -/
theorem becomeLeader (invariant : Invariant a) (refines : Refines a history j self)
    (candidate : self.role = .candidate) {voters : Finset (Fin n)} (quorum : IsQuorum voters)
    (granted : ∀ v ∈ voters, self.prepareOk v = true) :
    ∃ b, Steps j a b ∧ Refines b history j self.becomeLeader := by
  have roundEq := refines.round
  have indexEq := refines.index
  have stands := refines.stands candidate
  have fresh : a.leader self.currentRound ≠ some j := by
    rw [Ne, ← refines.leads, candidate]
    simp
  have step : Step j a _ := Step.elect voters quorum
    (fun v member => roundEq ▸ refines.granted candidate v (granted v member))
    (roundEq ▸ stands) (roundEq ▸ fresh)
  have extension := step.extends invariant.ballots invariant.logs
  refine ⟨_, Relation.ReflTransGen.single step, ?_⟩
  unfold Replica.becomeLeader
  refine { refines with
    log := { refines.log with }
    state := { refines.state with }
    promised := ?_
    stands := ?_
    granted := ?_
    leads := ?_
    matched := ?_
    next := ?_
    decided := refines.decided.grow extension invariant.logs le_rfl }
  · rw [indexEq]
    exact invariant.ballots.candidacy_vote _ _ _ stands
  · simp
  · simp
  · simp [roundEq]
  · intro _ v
    by_cases own : v = j
    · subst v
      simp [record, roundEq, indexEq, refines.log.lastLogIndex]
    · simp [record, own, indexEq]
  · intro _ v
    by_cases own : v = j
    · subst v
      simp [Replica.lastLogIndex]
    · simp [own, indexEq, Replica.lastLogIndex]

/-- A leader logs a request. -/
theorem logRequest (invariant : Invariant a) (refines : Refines a history j self)
    (leader : self.role = .leader) (req : Request) :
    ∃ b, Steps j a b ∧ Refines b history j
      { self with
        nextSlot := self.nextSlot + 1
        log := self.log.emplace self.nextSlot ⟨self.nextSlot, self.currentRound, req⟩ } := by
  have roundEq := refines.round
  have holds := refines.log
  have step : Step j a _ := Step.append req (roundEq ▸ refines.leads.mp leader)
  have extension := step.extends invariant.ballots invariant.logs
  refine ⟨_, Relation.ReflTransGen.single step, ?_⟩
  refine { refines with
    log := ?_
    state := ?_
    stands := ?_
    granted := ?_
    matched := fun _ v => (refines.matched leader v).trans (extension.acked v _)
    next := ?_
    decided := refines.decided.grow extension invariant.logs le_rfl }
  · simp only [Function.update_self, roundEq]
    exact holds.push ⟨self.currentRound, req⟩
  · simp only [Function.update_self]
    refine { refines.state.congr holds ?_ with }
    exact fun slot le => (entryAt_append_of_le (le.trans holds.committed)).symm
  · simp [leader]
  · simp [leader]
  · intro _ v
    obtain ⟨positive, le⟩ := refines.next leader v
    simp only [Replica.lastLogIndex] at le ⊢
    exact ⟨positive, by omega⟩

/-- A follower adopts the first `count` entries of its leader. -/
theorem adopt (invariant : Invariant a) (refines : Refines a history j self)
    (follower : self.role = .follower) {l : Fin n} {count nextSlot : Nat}
    {next : List (Entry Request)} {log : OrderedMap Nat LogEntry}
    (leads : a.leader self.currentRound = some l) (other : l ≠ j)
    (le : count ≤ (a.leaderLog self.currentRound).length)
    (adopts : Adopts ((a.leaderLog self.currentRound).take count) (a.log j) next)
    (holds : HoldsLog { self with log := log, nextSlot := nextSlot } next)
    (same : ∀ slot ≤ self.commitIndex, entryAt (a.log j) slot = entryAt next slot) :
    ∃ b, Steps j a b ∧ b.leader = a.leader ∧ b.leaderLog = a.leaderLog ∧ b.log j = next ∧
      count ≤ b.acked j self.currentRound ∧
      Refines b history j { self with log := log, nextSlot := nextSlot } := by
  have roundEq := refines.round
  rw [← roundEq] at leads le adopts
  have step : Step j a _ := Step.accept l count next leads other le adopts
  have extension := step.extends invariant.ballots invariant.logs
  refine ⟨_, Relation.ReflTransGen.single step, rfl, rfl, by simp, ?_, ?_⟩
  · simp [record, roundEq]
  refine { refines with
    log := ?_
    state := ?_
    stands := ?_
    matched := ?_
    next := ?_
    decided := refines.decided.grow extension invariant.logs le_rfl }
  · simpa only [Function.update_self] using holds
  · simp only [Function.update_self]
    exact { refines.state.congr refines.log same with }
  · simp [follower]
  · simp [follower]
  · simp [follower]

end Refines

end DoomDraft.Paxos
