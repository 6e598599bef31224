import DoomDraft.Paxos.Proposals

/-!
# Elections

Specifications of the handlers that move a replica between rounds: standing
for leader, promising a vote and counting promises.
-/

namespace DoomDraft.Paxos

open Pancy Consensus

variable {n : Nat} {careful : Prop} {a : Abstract n} {history : Trace n} {j : Fin n}
  {self : Replica n}

/-- Emit sound messages and stop. -/
theorem Settled.emit (invariant : Invariant a) (settled : Settled j a history self)
    {target : Fin n} {msg : PaxosMessage n} (sound : SoundMessage a history target msg) :
    Achieves careful a history j (self, [.send target msg]) (Settled j) := by
  refine (Achieves.emit invariant settled.1 ?_ ?_).imp ?_
  · simp [Event.isQuiet]
  · intro event member
    obtain rfl := List.mem_singleton.mp member
    exact sound
  · rintro b later after ⟨refinesB, rfl⟩
    exact ⟨refinesB, settled.2⟩

theorem Settled.becomeFollower (invariant : Invariant a) (settled : Settled j a history self)
    {round : Nat} (hint : Fin n) (le : self.currentRound ≤ round)
    (notLeader : a.leader round ≠ some j) :
    ∃ b, Steps j a b ∧ b.leader = a.leader ∧ b.leaderLog = a.leaderLog ∧
      b.candidacy = a.candidacy ∧ b.log = a.log ∧
      Settled j b history (self.becomeFollower round hint) := by
  obtain ⟨b, steps, leaderEq, leaderLogEq, candidacyEq, logEq, refinesB⟩ :=
    settled.1.becomeFollower invariant hint le notLeader
  refine ⟨b, steps, leaderEq, leaderLogEq, candidacyEq, logEq, refinesB, ?_⟩
  have applied := settled.2
  unfold Replica.becomeFollower
  split <;> exact applied

theorem Replica.becomeFollower_currentRound (hint : Fin n) {round : Nat}
    (le : self.currentRound ≤ round) :
    (self.becomeFollower round hint).currentRound = round := by
  simp only [Replica.becomeFollower]
  split
  · rfl
  · omega

theorem Replica.isQuorum_of_hasQuorum {ok : Fin n → Bool}
    (quorum : self.hasQuorum ((List.finRange n).countP ok) = true) :
    IsQuorum (Finset.univ.filter fun v => ok v = true) := by
  have enough : n / 2 + 1 ≤ (List.finRange n).countP ok := of_decide_eq_true quorum
  have counted := countP_finRange fun v => ok v = true
  simp only [Bool.decide_eq_true] at counted
  unfold IsQuorum
  rw [Fintype.card_fin, ← counted]
  exact enough

/-- Take office and propose to every peer. -/
theorem becomeLeader_spec (invariant : Invariant a) (settled : Settled j a history self)
    (candidate : self.role = .candidate) {voters : Finset (Fin n)} (quorum : IsQuorum voters)
    (granted : ∀ v ∈ voters, self.prepareOk v = true) :
    Achieves careful a history j self.becomeLeader.broadcastPropose (Settled j) := by
  obtain ⟨b, steps, refinesB⟩ := settled.1.becomeLeader invariant candidate quorum granted
  obtain ⟨invariantB, -⟩ := invariant.steps steps
  refine Achieves.after steps ?_
  exact (broadcastPropose_spec invariantB ⟨⟨refinesB, settled.2⟩, rfl⟩).imp
    fun c later after presiding => presiding.1

theorem startProbeRound_spec (invariant : Invariant a) (settled : Settled j a history self) :
    Achieves careful a history j self.startProbeRound (Settled j) := by
  obtain ⟨b, steps, refinesB⟩ := settled.1.startProbe invariant
  obtain ⟨invariantB, -⟩ := invariant.steps steps
  refine Achieves.after steps ?_
  unfold Replica.startProbeRound
  dsimp only
  refine (Achieves.emit invariantB refinesB ?_ ?_).andThen invariantB ?_
  · intro event member
    obtain ⟨peer, -, rfl⟩ := List.mem_map.mp member
    rfl
  · intro event member
    obtain ⟨peer, -, rfl⟩ := List.mem_map.mp member
    refine ⟨b.log j, ?_, refinesB.log.lastLogIndex, refinesB.log.lastLogRound⟩
    have stands := refinesB.stands rfl
    rw [← refinesB.index] at stands ⊢
    exact stands
  · rintro c later invariantC - ⟨refinesC, -⟩
    have settledC := And.intro refinesC settled.2
    split
    · rename_i quorum
      have alone : IsQuorum {self.index} := by
        have small : n / 2 + 1 ≤ 1 := of_decide_eq_true quorum
        unfold IsQuorum
        rw [Fintype.card_fin, Finset.card_singleton]
        exact small
      refine becomeLeader_spec invariantC settledC rfl alone ?_
      · intro v member
        obtain rfl := Finset.mem_singleton.mp member
        simp
    · exact Achieves.pure settledC

/-- The second half of `handle_probe`, in the round of the probe. -/
theorem answerProbe_spec (invariant : Invariant a) (settled : Settled j a history self)
    {msg : ProbeMessage n} (sound : SoundMessage a history j (.probe msg))
    (roundEq : self.currentRound = msg.round) :
    Achieves careful a history j
      (if (self.promisedLeader = none ∨ self.promisedLeader = some msg.leader) ∧
          self.leaderIsUpToDate msg.lastLogIndex msg.lastLogRound then
        ({ self with promisedLeader := some msg.leader, leaderIndex := msg.leader },
          [.send msg.leader (.prepare ⟨self.currentRound, self.index, true⟩)])
      else (self, [.send msg.leader (.prepare ⟨self.currentRound, self.index, false⟩)]))
      (Settled j) := by
  obtain ⟨candidate, stands, indexEq, lastEq⟩ := sound
  split
  · rename_i grants
    obtain ⟨free, upToDate⟩ := grants
    have newer : UpToDate candidate (a.log j) := by
      unfold Replica.leaderIsUpToDate at upToDate
      rw [settled.1.log.lastLogRound, settled.1.log.lastLogIndex, indexEq, lastEq] at upToDate
      unfold UpToDate
      split at upToDate
      · exact Or.inl (of_decide_eq_true upToDate)
      · rename_i sameRound
        exact Or.inr ⟨(not_not.mp sameRound).symm, of_decide_eq_true upToDate⟩
    -- A repeated promise is on record already; a new one is an abstract step.
    obtain ⟨b, steps, refinesB⟩ : ∃ b, Steps j a b ∧ Refines b history j
        { self with promisedLeader := some msg.leader, leaderIndex := msg.leader } := by
      rcases free with free | again
      · exact settled.1.promise invariant free (roundEq ▸ stands) newer
      · refine ⟨a, Relation.ReflTransGen.refl, { settled.1 with
          log := { settled.1.log with }
          state := { settled.1.state with }
          promised := ?_ }⟩
        exact settled.1.promised.trans again
    obtain ⟨invariantB, -⟩ := invariant.steps steps
    refine Achieves.after steps (Settled.emit invariantB ⟨refinesB, settled.2⟩ ?_)
    intro _
    exact refinesB.index ▸ refinesB.promised
  · exact settled.emit invariant (by simp [SoundMessage])

theorem handleProbe_spec (invariant : Invariant a) (settled : Settled j a history self)
    {msg : ProbeMessage n} (sound : SoundMessage a history j (.probe msg)) :
    Achieves careful a history j (self.handleProbe msg) (Settled j) := by
  unfold Replica.handleProbe
  split
  · exact settled.emit invariant (by simp [SoundMessage])
  · rename_i current
    dsimp only
    by_cases later : self.currentRound < msg.round
    · simp only [if_pos later]
      obtain ⟨b, steps, -, -, candidacyEq, -, settledB⟩ := settled.becomeFollower invariant
        self.leaderIndex later.le (settled.1.not_leads_later invariant.ballots later)
      obtain ⟨invariantB, -⟩ := invariant.steps steps
      refine Achieves.after steps (answerProbe_spec invariantB settledB ?_ ?_)
      · obtain ⟨candidate, stands, rest⟩ := sound
        exact ⟨candidate, candidacyEq ▸ stands, rest⟩
      · exact Replica.becomeFollower_currentRound _ later.le
    · simp only [if_neg later]
      exact answerProbe_spec invariant settled sound (by omega)

theorem handlePrepare_spec (invariant : Invariant a) (settled : Settled j a history self)
    {msg : PrepareMessage n} (sound : SoundMessage a history j (.prepare msg)) :
    Achieves careful a history j (self.handlePrepare msg) (Settled j) := by
  unfold Replica.handlePrepare
  split
  · rename_i later
    obtain ⟨b, steps, -, -, -, -, settledB⟩ := settled.becomeFollower invariant
      self.leaderIndex later.le (settled.1.not_leads_later invariant.ballots later)
    exact Achieves.after steps (Achieves.pure settledB)
  · split
    · exact Achieves.pure settled
    · rename_i counts
      simp only [not_or, not_not] at counts
      obtain ⟨candidate, roundEq, promised, -⟩ := counts
      have granted : a.vote msg.server self.currentRound = some j := by
        rw [← roundEq]
        exact sound (by simpa using promised)
      have settledB : Settled j a history
          { self with prepareOk := Function.update self.prepareOk msg.server true } := by
        refine ⟨{ settled.1 with
          log := { settled.1.log with }
          state := { settled.1.state with }
          granted := ?_ }, settled.2⟩
        intro _ v ok
        by_cases same : v = msg.server
        · exact same ▸ granted
        · simp only [Function.update_of_ne same] at ok
          exact settled.1.granted candidate v ok
      dsimp only
      split
      · rename_i quorum
        exact becomeLeader_spec invariant settledB candidate
          (Replica.isQuorum_of_hasQuorum quorum) fun v member => (Finset.mem_filter.mp member).2
      · exact Achieves.pure settledB

end DoomDraft.Paxos
