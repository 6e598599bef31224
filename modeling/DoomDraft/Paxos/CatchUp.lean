import DoomDraft.Paxos.Repair

/-!
# Catching up

A new leader starts behind the end of its own log, and from there the exchange
with each follower that it is entitled to lead repairs the follower's log.
-/

namespace DoomDraft.Paxos

open Pancy Consensus

variable {n : Nat}

/-! ## Taking office -/

/-- Between the two states `leader` executes `become_leader` and then, for the
first time, `broadcast_propose`.  The configured leader is in office from the
start and broadcasts at its first heartbeat. -/
inductive System.TakesOffice (leader : Fin n) : System n → System n → Prop
  | elected {before s : System n} {action : Action n} (reachable : before.Reachable)
      (stepped : before.step action = some s) (waits : (before.replicas leader).role ≠ .leader)
      (leads : (s.replicas leader).role = .leader) : TakesOffice leader before s
  | configured {s : System n}
      (stepped : (System.initial leader).step (.heartbeat leader) = some s) :
      TakesOffice leader (System.initial leader) s

namespace Replica

/-- `handle_propose` makes no leader. -/
theorem role_handlePropose {self : Replica n} (waits : self.role ≠ .leader)
    (msg : ProposeMessage n) : (self.handlePropose msg).1.role ≠ .leader := by
  unfold handlePropose
  split
  · exact waits
  · have follower : (self.becomeFollower msg.round msg.leader).role = .follower := rfl
    dsimp only
    split
    · simp [follower]
    · obtain ⟨log, next, replica⟩ := (self.becomeFollower msg.round
        msg.leader).appendEntries_replica msg.prevLogIndex msg.entries
      split
      · rename_i final slot appended
        rw [appended] at replica
        change final = _ at replica
        simp [replica, follower]
      · rename_i final matched appended
        rw [appended] at replica
        change final = _ at replica
        rw [(final.acceptBatch_upkeep msg matched).1, replica]
        simp [follower]

theorem role_handleProbe {self : Replica n} (waits : self.role ≠ .leader)
    (msg : ProbeMessage n) : (self.handleProbe msg).1.role ≠ .leader := by
  have follower : (self.becomeFollower msg.round self.leaderIndex).role ≠ .leader := by
    simp [becomeFollower]
  unfold handleProbe
  split
  · exact waits
  · have current : (if self.currentRound < msg.round then
        self.becomeFollower msg.round self.leaderIndex else self).role ≠ .leader := by
      split
      · exact follower
      · exact waits
    dsimp only
    generalize (if self.currentRound < msg.round then
      self.becomeFollower msg.round self.leaderIndex else self) = now at current ⊢
    split
    · exact current
    · exact current

theorem role_handleAck {self : Replica n} (waits : self.role ≠ .leader) (msg : AckMessage n) :
    (self.handleAck msg).1.role ≠ .leader := by
  unfold handleAck
  split
  · simp [becomeFollower]
  · rw [if_pos (Or.inl waits)]
    exact waits

end Replica

/-- The only handler by which a replica of several takes office is
`handle_prepare`. -/
theorem System.Handled.elected {s : System n} {i : Fin n} {outcome : Outcome n}
    (handled : s.Handled i outcome) (several : 1 < n) (waits : (s.replicas i).role ≠ .leader)
    (leads : outcome.1.role = .leader) : ∃ promises, outcome =
      ({ s.replicas i with prepareOk := promises } : Replica n).becomeLeader.broadcastPropose := by
  cases handled with
  | message packet inFlight =>
      cases msgEq : packet.msg with
      | probe msg =>
          rw [msgEq] at leads
          exact absurd leads (Replica.role_handleProbe waits msg)
      | prepare msg =>
          rw [msgEq] at leads
          simp only [Replica.handleReplicaMessage, Replica.handlePrepare] at leads ⊢
          split
          · rename_i later
            rw [if_pos later] at leads
            simp [Replica.becomeFollower] at leads
          · rename_i current
            rw [if_neg current] at leads
            split
            · rename_i ignored
              rw [if_pos ignored] at leads
              exact absurd leads waits
            · rename_i counted
              rw [if_neg counted] at leads
              split
              · exact ⟨_, rfl⟩
              · rename_i short
                rw [if_neg short] at leads
                exact absurd leads waits
      | propose msg =>
          rw [msgEq] at leads
          exact absurd leads (Replica.role_handlePropose waits msg)
      | ack msg =>
          rw [msgEq] at leads
          exact absurd leads (Replica.role_handleAck waits msg)
  | request i now req =>
      simp only [Replica.handleClientRequest, if_pos waits] at leads
      exact absurd leads waits
  | flush i now leader => exact absurd leader waits
  | heartbeat i leader => exact absurd leader waits
  | electionTimeout i notLeader =>
      have alone : ∀ self : Replica n, self.hasQuorum 1 = false := by
        intro self
        simp only [Replica.hasQuorum, Replica.quorumSize]
        exact decide_eq_false (by omega)
      simp [Replica.startProbeRound, Outcome.andThen, alone] at leads

theorem Replica.becomeLeader_nextIndex (self : Replica n) (peer : Fin n) :
    self.becomeLeader.nextIndex peer = self.becomeLeader.lastLogIndex + 1 := by
  simp only [becomeLeader, Function.update_apply]
  split <;> rfl

/-- The first proposals of a leader start behind the end of its log. -/
theorem Replica.broadcast_becomeLeader {self : Replica n}
    (trimmed : self.trimThrough ≤ self.lastLogIndex) {peer : Fin n} (other : peer ≠ self.index) :
    self.becomeLeader.broadcastPropose.1 = self.becomeLeader ∧
      Event.send peer (.propose (self.becomeLeader.proposal (self.lastLogIndex + 1))) ∈
        self.becomeLeader.broadcastPropose.2 := by
  have retained : ∀ v, self.becomeLeader.trimThrough < self.becomeLeader.nextIndex v := by
    intro v
    rw [becomeLeader_nextIndex]
    exact Nat.lt_succ_of_le trimmed
  rw [broadcastPropose_eq rfl retained]
  refine ⟨rfl, List.mem_flatMap.mpr ⟨peer, List.mem_finRange peer, ?_⟩⟩
  rw [if_neg (show ¬ peer = self.becomeLeader.index from other), becomeLeader_nextIndex]
  exact List.mem_cons_self

section Office

variable {leader follower : Fin n} {before s : System n}

/-- After taking office a replica is as `become_leader` leaves it, and its first
proposals are in flight. -/
structure Opens (before s : System n) (leader follower : Fin n) : Prop where
  reachable : s.Reachable
  office : ∃ self : Replica n, s.replicas leader = self.becomeLeader
  sent : (leader, Event.send follower
      (.propose ((s.replicas leader).proposal ((s.replicas leader).lastLogIndex + 1)))) ∈
    s.history.drop before.history.length
  proposed : s.proposed leader follower (s.replicas leader).lastLogIndex ∈ s.network

theorem System.opens_record {self : Replica n} {network : List (Packet n)}
    (reachable : (before.record leader network self.becomeLeader.broadcastPropose).Reachable)
    (index : self.index = leader) (trimmed : self.trimThrough ≤ self.lastLogIndex)
    (other : follower ≠ leader) :
    Opens before (before.record leader network self.becomeLeader.broadcastPropose) leader
      follower := by
  obtain ⟨stays, sent⟩ := Replica.broadcast_becomeLeader trimmed (index ▸ other)
  have replica : (before.record leader network self.becomeLeader.broadcastPropose).replicas
      leader = self.becomeLeader := by
    rw [System.replicas_record, stays]
  refine ⟨reachable, ⟨self, replica⟩, ?_, ?_⟩
  · rw [replica]
    rw [System.record, List.drop_left]
    exact List.mem_map.mpr ⟨_, sent, rfl⟩
  · rw [System.proposed, replica]
    exact List.mem_append_right _ (List.mem_filterMap.mpr ⟨_, sent, rfl⟩)

theorem System.TakesOffice.opens (office : System.TakesOffice leader before s)
    (other : follower ≠ leader) : Opens before s leader follower := by
  cases office with
  | elected reachable stepped waits leads =>
      have reachableS := reachable.step stepped
      rcases System.step_cases stepped with
        ⟨i, network, outcome, handled, -, rfl⟩ | ⟨network, -, rfl⟩
      · by_cases own : leader = i
        · subst own
          have several : 1 < n := by
            have distinct := Fin.val_ne_of_ne other
            omega
          rw [System.replicas_record] at leads
          obtain ⟨promises, rfl⟩ := handled.elected several waits leads
          exact System.opens_record reachableS (reachable.index leader)
            (reachable.trimThrough_le leader leader) other
        · rw [before.replicas_record_of_ne own] at leads
          exact absurd leads waits
      · exact absurd leads waits
  | configured stepped =>
      have start : (System.initial leader).Reachable := ⟨leader, [], rfl⟩
      have reachableS := start.step stepped
      simp only [System.step] at stepped
      split at stepped
      · obtain rfl := Option.some.inj stepped
        have inOffice : (System.initial leader).replicas leader =
            ({ Replica.construct leader with leaderIndex := leader, role := .leader } :
              Replica n).becomeLeader := by
          simp [System.initial, Replica.initializeWith, Replica.construct]
        rw [inOffice] at reachableS ⊢
        exact System.opens_record reachableS rfl (Nat.zero_le _) other
      · contradiction

/-- The first proposal is one from behind the end of the leader's log. -/
theorem Opens.repairing (opens : Opens before s leader follower) (other : follower ≠ leader)
    (round : (s.replicas follower).currentRound ≤ (s.replicas leader).currentRound)
    (agree : ∀ slot ≤ (s.replicas follower).commitIndex, s.AgreeAt leader follower slot) :
    Repairing s leader follower (s.replicas leader).lastLogIndex := by
  obtain ⟨self, office⟩ := opens.office
  constructor
  case reachable => exact opens.reachable
  case other => exact other
  case leads =>
    rw [office]
    rfl
  case round => exact round
  case next =>
    rw [office]
    exact self.becomeLeader_nextIndex follower
  case within => exact le_rfl
  case leaderTrim => exact opens.reachable.trimThrough_le leader leader
  case followerTrim => exact opens.reachable.trimThrough_le follower leader
  case proposed => exact opens.proposed
  case committed => exact agree
  case diverges =>
    intro one oneFound
    rw [opens.reachable.find_beyond (Nat.lt_succ_self _)] at oneFound
    contradiction

/-- Catch-up, from every reachable state in which a replica has just taken office:
the exchange with a follower that is in no later round and whose committed entries
the leader has stops, and then the leader knows that the follower has its log. -/
theorem catch_up (office : System.TakesOffice leader before s) (other : follower ≠ leader)
    (round : (s.replicas follower).currentRound ≤ (s.replicas leader).currentRound)
    (agree : ∀ slot ≤ (s.replicas follower).commitIndex, s.AgreeAt leader follower slot) :
    ∃ proposal, (leader, Event.send follower (.propose proposal)) ∈
        s.history.drop before.history.length ∧
      ⟨follower, .propose proposal⟩ ∈ s.network ∧
      ∃ fuel final, s.exchange fuel ⟨follower, .propose proposal⟩ = some final ∧
        (final.replicas leader).lastLogIndex = (s.replicas leader).lastLogIndex ∧
        (final.replicas leader).matchIndex follower = (s.replicas leader).lastLogIndex ∧
        ∀ slot ≤ (s.replicas leader).lastLogIndex, final.AgreeAt leader follower slot := by
  have opens := office.opens other
  obtain ⟨fuel, final, ended, repaired⟩ := (opens.repairing other round agree).repaired
  exact ⟨_, opens.sent, opens.proposed, fuel, final, ended, repaired.ends, repaired.matched,
    repaired.agree⟩

end Office

/-- Replica 1 takes office with one entry, and replica 2 has none. -/
theorem catch_up_failover : ∃ before s : System 3, System.TakesOffice 1 before s ∧
    (s.replicas 1).lastLogIndex = 1 ∧ (s.replicas 2).lastLogIndex = 0 ∧
    ∃ proposal fuel final, s.exchange fuel ⟨2, .propose proposal⟩ = some final ∧
      (final.replicas 1).matchIndex 2 = 1 ∧ final.AgreeAt 1 2 1 := by
  have facts : ((System.initial 0).perform (failover.take 6)).any (fun before =>
      (before.replicas 1).role ≠ .leader ∧ (before.step (.deliver 2)).any (fun s =>
        (s.replicas 1).role = .leader ∧ (s.replicas 1).lastLogIndex = 1 ∧
        (s.replicas 2).lastLogIndex = 0 ∧
        (s.replicas 2).currentRound ≤ (s.replicas 1).currentRound ∧
        ∀ slot ≤ (s.replicas 2).commitIndex, s.AgreeAt 1 2 slot)) = true := by
    decide +kernel
  obtain ⟨before, run, holds⟩ := (Option.any_eq_true _ _).mp facts
  obtain ⟨waits, elected⟩ := of_decide_eq_true holds
  obtain ⟨s, stepped, state⟩ := (Option.any_eq_true _ _).mp elected
  obtain ⟨leads, last, empty, round, agree⟩ := of_decide_eq_true state
  have office : System.TakesOffice 1 before s := .elected ⟨0, _, run⟩ stepped waits leads
  obtain ⟨proposal, -, -, fuel, final, ended, -, matched, repaired⟩ :=
    catch_up office (by decide) round agree
  exact ⟨before, s, office, last, empty, proposal, fuel, final, ended, matched.trans last,
    repaired 1 last.ge⟩

end DoomDraft.Paxos
