import DoomDraft.Paxos.Exchange

/-!
# Repairing a log

A leader proposes to a follower from behind some slot on.  As long as the follower
refuses, the previous slot of the proposals goes down, until the two logs match
there; from then on each batch is accepted and the previous slot goes up to the
end of the log.  It never goes below a trim point, because what a replica has
trimmed is in every log.
-/

namespace DoomDraft.Paxos

open Pancy Consensus

variable {n : Nat}

namespace System

/-- Deliver `packet`, then what its handler sends, and so on until a handler
sends nothing; `none` if that takes more than `fuel` deliveries. -/
def exchange : Nat → System n → Packet n → Option (System n)
  | 0, _, _ => none
  | fuel + 1, s, packet =>
      (s.step (.deliver (s.network.idxOf packet))).bind fun t =>
        match t.network.drop (s.network.length - 1) with
        | [] => some t
        | answer :: _ => exchange fuel t answer

/-- The state is reached by some run. -/
def Reachable (s : System n) : Prop :=
  ∃ initialLeader actions, (initial initialLeader).perform actions = some s

/-- Where both replicas retain the slot, they have the same entry there. -/
def AgreeAt (s : System n) (i j : Fin n) (slot : Nat) : Prop :=
  ∀ one ∈ (s.replicas i).log.find? slot, ∀ other ∈ (s.replicas j).log.find? slot,
    one.round = other.round ∧ one.req = other.req

instance (s : System n) (i j : Fin n) (slot : Nat) : Decidable (s.AgreeAt i j slot) :=
  inferInstanceAs (Decidable (∀ one ∈ (s.replicas i).log.find? slot, _))

/-! ## Deliveries -/

/-- The handler that a packet starts. -/
def handle (s : System n) (packet : Packet n) : Outcome n :=
  (s.replicas packet.target).handleReplicaMessage packet.msg

/-- The state after the delivery of a packet. -/
def delivered (s : System n) (packet : Packet n) : System n :=
  s.record packet.target (s.network.eraseIdx (s.network.idxOf packet)) (s.handle packet)

section Deliveries

variable {s : System n} {packet : Packet n}

theorem step_deliver (inFlight : packet ∈ s.network) :
    s.step (.deliver (s.network.idxOf packet)) = some (s.delivered packet) := by
  have found : s.network[s.network.idxOf packet]? = some packet := by
    rw [List.getElem?_eq_getElem (List.idxOf_lt_length_of_mem inFlight), List.getElem_idxOf]
  simp only [step, found]
  rfl

theorem Reachable.step {t : System n} {action : Action n} (reachable : s.Reachable)
    (stepped : s.step action = some t) : t.Reachable := by
  obtain ⟨initialLeader, actions, run⟩ := reachable
  refine ⟨initialLeader, actions ++ [action], ?_⟩
  rw [perform, Transition.perform_append]
  rw [perform] at run
  rw [run, Option.bind_some, Transition.perform, stepped]
  rfl

theorem Reachable.delivered (reachable : s.Reachable) (inFlight : packet ∈ s.network) :
    (s.delivered packet).Reachable :=
  reachable.step (step_deliver inFlight)

theorem drop_delivered (inFlight : packet ∈ s.network) :
    (s.delivered packet).network.drop (s.network.length - 1) = sends (s.handle packet).2 := by
  have length := List.length_eraseIdx_of_lt (List.idxOf_lt_length_of_mem inFlight)
  rw [System.delivered, record, ← length, List.drop_left]

theorem exchange_last (fuel : Nat) (inFlight : packet ∈ s.network)
    (silent : sends (s.handle packet).2 = []) :
    s.exchange (fuel + 1) packet = some (s.delivered packet) := by
  rw [exchange, step_deliver inFlight, Option.bind_some, drop_delivered inFlight, silent]

theorem exchange_next (fuel : Nat) {answer : Packet n} (inFlight : packet ∈ s.network)
    (answers : sends (s.handle packet).2 = [answer]) :
    s.exchange (fuel + 1) packet = (s.delivered packet).exchange fuel answer := by
  rw [exchange, step_deliver inFlight, Option.bind_some, drop_delivered inFlight, answers]

theorem mem_delivered {answer : Packet n} (answers : sends (s.handle packet).2 = [answer]) :
    answer ∈ (s.delivered packet).network := by
  rw [System.delivered, record, answers]
  exact List.mem_append_right _ List.mem_cons_self

theorem replicas_record (s : System n) (i : Fin n) (network : List (Packet n))
    (outcome : Outcome n) : (s.record i network outcome).replicas i = outcome.1 :=
  Function.update_self ..

theorem replicas_record_of_ne (s : System n) {i other : Fin n} (different : other ≠ i)
    (network : List (Packet n)) (outcome : Outcome n) :
    (s.record i network outcome).replicas other = s.replicas other :=
  Function.update_of_ne different ..

theorem delivered_target : (s.delivered packet).replicas packet.target = (s.handle packet).1 :=
  s.replicas_record _ _ _

theorem delivered_other {other : Fin n} (different : other ≠ packet.target) :
    (s.delivered packet).replicas other = s.replicas other :=
  s.replicas_record_of_ne different _ _

/-- A packet to one replica and its answer to another one. -/
theorem handle_delivered {answer : Packet n} (other : answer.target ≠ packet.target) :
    (s.delivered packet).handle answer =
      (s.replicas answer.target).handleReplicaMessage answer.msg := by
  rw [handle, delivered_other other]

theorem exchange_turn (fuel : Nat) {answer reply : Packet n} (inFlight : packet ∈ s.network)
    (answers : sends (s.handle packet).2 = [answer])
    (replies : sends ((s.delivered packet).handle answer).2 = [reply]) :
    s.exchange (fuel + 2) packet =
      ((s.delivered packet).delivered answer).exchange fuel reply := by
  rw [exchange_next (fuel + 1) inFlight answers,
    exchange_next fuel (mem_delivered answers) replies]

theorem exchange_end (fuel : Nat) {answer : Packet n} (inFlight : packet ∈ s.network)
    (answers : sends (s.handle packet).2 = [answer])
    (silent : sends ((s.delivered packet).handle answer).2 = []) :
    s.exchange (fuel + 2) packet = some ((s.delivered packet).delivered answer) := by
  rw [exchange_next (fuel + 1) inFlight answers,
    exchange_last fuel (mem_delivered answers) silent]

end Deliveries

end System

/-! ## Between two proposals -/

/-- The proposal to `follower` that starts behind slot `prev`. -/
def System.proposed (s : System n) (leader follower : Fin n) (prev : Nat) : Packet n :=
  ⟨follower, .propose ((s.replicas leader).proposal (prev + 1))⟩

/-- A leader has proposed to a follower from behind slot `prev` on.  The follower
has the leader's entries as far as it has committed, and not the leader's next
entry. -/
structure Repairing (s : System n) (leader follower : Fin n) (prev : Nat) : Prop where
  reachable : s.Reachable
  other : follower ≠ leader
  leads : (s.replicas leader).role = .leader
  round : (s.replicas follower).currentRound ≤ (s.replicas leader).currentRound
  next : (s.replicas leader).nextIndex follower = prev + 1
  within : prev ≤ (s.replicas leader).lastLogIndex
  leaderTrim : (s.replicas leader).trimThrough ≤ prev
  followerTrim : (s.replicas follower).trimThrough ≤ prev
  proposed : s.proposed leader follower prev ∈ s.network
  committed : ∀ slot ≤ (s.replicas follower).commitIndex, s.AgreeAt leader follower slot
  diverges : ∀ one ∈ (s.replicas leader).log.find? (prev + 1),
    ∀ held ∈ (s.replicas follower).log.find? (prev + 1), one.round ≠ held.round

/-- The follower accepts the previous slot of the proposal. -/
def Matches (s : System n) (leader follower : Fin n) (prev : Nat) : Prop :=
  (s.replicas follower).prefixMatches prev ((s.replicas leader).roundAt prev) = true

theorem System.Reachable.sheltered {s : System n} (reachable : s.Reachable) :
    ∃ a, Implements False a s ∧ Sheltered a s := by
  obtain ⟨initialLeader, actions, run⟩ := reachable
  exact exists_sheltered run

theorem System.Reachable.index {s : System n} (reachable : s.Reachable) (j : Fin n) :
    (s.replicas j).index = j := by
  obtain ⟨a, implements, -⟩ := reachable.sheltered
  exact (implements.settled j).1.index

theorem System.Reachable.trimThrough_le {s : System n} (reachable : s.Reachable) (i j : Fin n) :
    (s.replicas i).trimThrough ≤ (s.replicas j).lastLogIndex := by
  obtain ⟨a, implements, sheltered⟩ := reachable.sheltered
  rw [(implements.settled j).1.log.lastLogIndex]
  exact (sheltered.entryAt_eq implements.invariant i j).1

theorem System.Reachable.find_beyond {s : System n} (reachable : s.Reachable) {j : Fin n}
    {slot : Nat} (beyond : (s.replicas j).lastLogIndex < slot) :
    (s.replicas j).log.find? slot = none := by
  obtain ⟨a, implements, -⟩ := reachable.sheltered
  have keys := (implements.settled j).logShape.keys slot
  rw [← Option.not_isSome_iff_eq_none, keys]
  intro bounds
  exact absurd bounds.2 (Nat.not_le.mpr beyond)

section Rounds

variable {s : System n} {leader follower : Fin n} {prev : Nat}

/-- A follower that refuses has trimmed less, and so has the leader. -/
theorem Repairing.trims_lt (repairing : Repairing s leader follower prev)
    (mismatch : ¬ Matches s leader follower prev) :
    (s.replicas leader).trimThrough < prev ∧ (s.replicas follower).trimThrough < prev := by
  obtain ⟨a, implements, sheltered⟩ := repairing.reachable.sheltered
  have matching := implements.prefixMatches_trimThrough sheltered leader follower
  have leaderTrim := repairing.leaderTrim
  have followerTrim := repairing.followerTrim
  by_contra reached
  have atTrim : max (s.replicas leader).trimThrough (s.replicas follower).trimThrough = prev := by
    omega
  rw [atTrim] at matching
  exact mismatch matching

theorem Repairing.round_ne (repairing : Repairing s leader follower prev)
    (mismatch : ¬ Matches s leader follower prev) :
    ∀ one ∈ (s.replicas leader).log.find? prev, ∀ held ∈ (s.replicas follower).log.find? prev,
      one.round ≠ held.round := by
  obtain ⟨leaderTrim, followerTrim⟩ := repairing.trims_lt mismatch
  have positive : prev ≠ 0 := Nat.ne_zero_of_lt leaderTrim
  intro one oneFound held heldFound same
  refine mismatch ?_
  have roundAt : (s.replicas leader).roundAt prev = one.round := by
    rw [Replica.roundAt, if_neg positive, if_neg leaderTrim.ne', Option.mem_def.mp oneFound]
  rw [Matches, roundAt, Replica.prefixMatches, if_neg positive, if_neg followerTrim.not_gt,
    if_neg followerTrim.ne', Option.mem_def.mp heldFound]
  exact decide_eq_true same.symm

/-- A refused proposal from behind `prev` on: the follower is in the round of the
leader, and the leader has proposed again from slot `next` on. -/
structure Refused (s t : System n) (leader follower : Fin n) (prev next : Nat) : Prop where
  reachable : t.Reachable
  back : t.replicas leader = { s.replicas leader with
    nextIndex := Function.update (s.replicas leader).nextIndex follower next }
  follows : t.replicas follower =
    (s.replicas follower).becomeFollower (s.replicas leader).currentRound leader
  proposed : ⟨follower, .propose ((t.replicas leader).proposal next)⟩ ∈ t.network
  turn : ∀ fuel, s.exchange (fuel + 2) (s.proposed leader follower prev) =
    t.exchange fuel ⟨follower, .propose ((t.replicas leader).proposal next)⟩

/-- The follower refuses and names the slot from which it wants to be told. -/
theorem Repairing.refuse (repairing : Repairing s leader follower prev)
    (mismatch : ¬ Matches s leader follower prev) :
    ∃ t, Refused s t leader follower prev (min prev ((s.replicas follower).lastLogIndex + 1)) := by
  obtain ⟨leaderTrim, followerTrim⟩ := repairing.trims_lt mismatch
  have leaderIndex := repairing.reachable.index leader
  have followerIndex := repairing.reachable.index follower
  have leaderBound := repairing.reachable.trimThrough_le leader follower
  have other := repairing.other
  have inFlight := repairing.proposed
  -- the refusal
  have refused : s.handle (s.proposed leader follower prev) =
      ((s.replicas follower).becomeFollower (s.replicas leader).currentRound leader,
        [.send leader (.ack ⟨(s.replicas leader).currentRound, follower, false,
          (s.replicas follower).lastLogIndex,
          min prev ((s.replicas follower).lastLogIndex + 1)⟩)]) := by
    have handled := @Replica.handlePropose_mismatch n (s.replicas follower)
      ((s.replicas leader).proposal (prev + 1)) repairing.round followerTrim
      (by simpa [Replica.proposal, Matches] using mismatch)
    refine handled.trans ?_
    simp only [Replica.proposal, Nat.add_sub_cancel, leaderIndex, followerIndex]
  set next := min prev ((s.replicas follower).lastLogIndex + 1) with nextEq
  set ack : Packet n := ⟨leader, .ack ⟨(s.replicas leader).currentRound, follower, false,
    (s.replicas follower).lastLogIndex, next⟩⟩
  have acks : System.sends (s.handle (s.proposed leader follower prev)).2 = [ack] := by
    rw [refused]
    rfl
  set t := s.delivered (s.proposed leader follower prev)
  -- the next proposal
  have retries : t.handle ack = ({ s.replicas leader with
      nextIndex := Function.update (s.replicas leader).nextIndex follower next },
      [.send follower (.propose ((s.replicas leader).proposal next))]) := by
    have handled := @Replica.handleAck_refused n (s.replicas leader)
      ⟨(s.replicas leader).currentRound, follower, false, (s.replicas follower).lastLogIndex, next⟩
      repairing.leads rfl rfl (by rw [leaderIndex]; exact other)
      (by rw [repairing.next, nextEq]; dsimp only; omega) (by rw [nextEq]; dsimp only; omega)
    exact (System.handle_delivered other.symm).trans handled
  set u := t.delivered ack
  have leaderU : u.replicas leader = { s.replicas leader with
      nextIndex := Function.update (s.replicas leader).nextIndex follower next } :=
    (@System.delivered_target n t ack).trans (congrArg Prod.fst retries)
  have reply : System.sends (t.handle ack).2 =
      [⟨follower, .propose ((u.replicas leader).proposal next)⟩] := by
    rw [retries, leaderU]
    rfl
  refine ⟨u, ?_, leaderU, ?_, System.mem_delivered reply, ?_⟩
  · exact (repairing.reachable.delivered inFlight).delivered (System.mem_delivered acks)
  · have atT := (@System.delivered_target n s (s.proposed leader follower prev)).trans
      (congrArg Prod.fst refused)
    exact (@System.delivered_other n t ack follower other).trans atT
  · exact fun fuel => System.exchange_turn fuel inFlight acks reply

/-- The follower refuses, and the leader proposes from further below. -/
theorem Repairing.back (repairing : Repairing s leader follower prev)
    (mismatch : ¬ Matches s leader follower prev) :
    ∃ t earlier, earlier < prev ∧ Repairing t leader follower earlier ∧
      (t.replicas leader).lastLogIndex = (s.replicas leader).lastLogIndex ∧
      ∀ fuel, s.exchange (fuel + 2) (s.proposed leader follower prev) =
        t.exchange fuel (t.proposed leader follower earlier) := by
  obtain ⟨leaderTrim, followerTrim⟩ := repairing.trims_lt mismatch
  have leaderBound := repairing.reachable.trimThrough_le leader follower
  have followerBound := repairing.reachable.trimThrough_le follower follower
  have within := repairing.within
  obtain ⟨t, refused⟩ := repairing.refuse mismatch
  generalize nextEq : min prev ((s.replicas follower).lastLogIndex + 1) = next at refused
  obtain ⟨earlier, rfl⟩ : ∃ earlier, next = earlier + 1 := ⟨next - 1, by omega⟩
  obtain ⟨-, logEq, -, commitEq, trimEq⟩ := (s.replicas follower).becomeFollower_frame
    (s.replicas leader).currentRound leader
  have lastEq : (t.replicas leader).lastLogIndex = (s.replicas leader).lastLogIndex := by
    rw [refused.back]
    rfl
  refine ⟨t, earlier, by omega, ?_, lastEq, refused.turn⟩
  constructor
  case reachable => exact refused.reachable
  case other => exact repairing.other
  case leads =>
    rw [refused.back]
    exact repairing.leads
  case round =>
    rw [refused.back, refused.follows,
      Replica.becomeFollower_currentRound leader repairing.round]
  case next =>
    rw [refused.back]
    exact Function.update_self ..
  case within => omega
  case leaderTrim =>
    rw [refused.back]
    dsimp only
    omega
  case followerTrim =>
    rw [refused.follows, trimEq]
    omega
  case proposed => exact refused.proposed
  case committed =>
    intro slot le
    rw [refused.follows, commitEq] at le
    have agree := repairing.committed slot le
    simp only [System.AgreeAt, refused.back, refused.follows, logEq] at agree ⊢
    exact agree
  case diverges =>
    -- the slot is the one refused, or it lies behind the follower's log
    simp only [refused.back, refused.follows, logEq, ← nextEq]
    intro one oneFound held heldFound
    rcases min_choice prev ((s.replicas follower).lastLogIndex + 1) with eq | eq
    · rw [eq] at oneFound heldFound
      exact repairing.round_ne mismatch one oneFound held heldFound
    · rw [eq, repairing.reachable.find_beyond (Nat.lt_succ_self _)] at heldFound
      contradiction

/-- A follower in the round of its leader has the leader's log as far as it has
acknowledged it. -/
theorem Implements.entryAt_eq_of_acked {a : Abstract n} (implements : Implements False a s)
    (leads : (s.replicas leader).role = .leader)
    (round : (s.replicas follower).currentRound = (s.replicas leader).currentRound) :
    ∀ slot ≤ (s.replicas leader).matchIndex follower,
      entryAt (a.log follower) slot = entryAt (a.log leader) slot := by
  have refines := (implements.settled leader).1
  have acked := refines.matched leads follower
  have bound := implements.invariant.logs.acked_le follower (s.replicas leader).currentRound
  rcases implements.invariant.retention.log follower _ _ acked with held | lost
  · intro slot le
    rw [refines.log_eq_leaderLog implements.invariant leads]
    have takeEq := List.prefix_iff_eq_take.mp held
    rw [List.length_take_of_le (acked.trans bound)] at takeEq
    exact (entryAt_eq_of_take_eq takeEq le).symm
  · obtain ⟨q, later, before, -⟩ := lost
    rw [(implements.settled follower).1.round, round] at before
    omega

theorem Implements.agreeAt_of_entryAt_eq {a : Abstract n} (implements : Implements False a s)
    {slot : Nat} (same : entryAt (a.log follower) slot = entryAt (a.log leader) slot) :
    s.AgreeAt leader follower slot := by
  intro one oneFound held heldFound
  obtain ⟨-, source, sourceFound, rfl⟩ :=
    (implements.settled leader).1.log.entryAt_of_find (Option.mem_def.mp oneFound)
  obtain ⟨-, entry, entryFound, rfl⟩ :=
    (implements.settled follower).1.log.entryAt_of_find (Option.mem_def.mp heldFound)
  rw [entryFound, sourceFound] at same
  cases same
  exact ⟨rfl, rfl⟩

/-- The batch of a proposal is not empty before the end of the log. -/
theorem Repairing.entries_ne_nil (repairing : Repairing s leader follower prev)
    (before : prev < (s.replicas leader).lastLogIndex) :
    ((s.replicas leader).proposal (prev + 1)).entries ≠ [] := by
  obtain ⟨a, implements, -⟩ := repairing.reachable.sheltered
  have leaderTrim := repairing.leaderTrim
  have present := ((implements.settled leader).logShape.keys (prev + 1)).mpr
    ⟨by omega, Nat.succ_le_of_lt before⟩
  obtain ⟨entry, found⟩ := Option.isSome_iff_exists.mp present
  obtain ⟨rest, lowerBound⟩ := OrderedMap.exists_lowerBound_eq found
  simp [Replica.proposal, lowerBound, Replica.collectBatch, Replica.appendBatchSize]

/-- The follower accepts the batch, and behind it its log ends. -/
theorem Repairing.append (repairing : Repairing s leader follower prev)
    (matching : Matches s leader follower prev) :
    ∃ final, ((s.replicas follower).becomeFollower (s.replicas leader).currentRound
        leader).appendEntries prev ((s.replicas leader).proposal (prev + 1)).entries =
      .done final (prev + ((s.replicas leader).proposal (prev + 1)).entries.length) ∧
    (prev < (s.replicas leader).lastLogIndex → final.nextSlot =
      prev + ((s.replicas leader).proposal (prev + 1)).entries.length + 1) := by
  obtain ⟨a, implements, sheltered⟩ := repairing.reachable.sheltered
  have invariant := implements.invariant
  have refinesL := (implements.settled leader).1
  have refinesF := (implements.settled follower).1
  have leads := refinesL.leads.mp repairing.leads
  have logL := refinesL.log_eq_leaderLog invariant repairing.leads
  obtain ⟨-, -, prevLe, prevRound, -, batch⟩ := implements.inFlight _ repairing.proposed
  have prevEq : ((s.replicas leader).proposal (prev + 1)).prevLogIndex = prev := rfl
  have roundEq : ((s.replicas leader).proposal (prev + 1)).round =
    (s.replicas leader).currentRound := rfl
  rw [prevEq, roundEq] at prevLe prevRound batch
  obtain ⟨trimmed, takeEq⟩ := refinesF.take_eq_of_prefixMatches invariant prevLe prevRound matching
  -- the follower in the round of the leader
  have notLeader : a.leader (s.replicas leader).currentRound ≠ some follower := by
    rw [leads]
    simpa using repairing.other.symm
  obtain ⟨b, -, -, -, -, logB, refinesB⟩ :=
    refinesF.becomeFollower invariant leader repairing.round notLeader
  have holds := refinesB.log
  rw [logB] at holds
  obtain ⟨-, -, -, commitEq, trimEq⟩ := (s.replicas follower).becomeFollower_frame
    (s.replicas leader).currentRound leader
  have start : Appending (a.leaderLog (s.replicas leader).currentRound) (a.log follower)
      ((s.replicas follower).becomeFollower (s.replicas leader).currentRound leader)
      ((s.replicas follower).becomeFollower (s.replicas leader).currentRound leader)
      (a.log follower) prev := by
    refine ⟨rfl, holds, trimEq ▸ trimmed, prevLe, Or.inl ⟨?_, rfl⟩, fun _ _ => rfl⟩
    rw [← takeEq]
    exact List.take_prefix _ _
  rcases appendEntries_spec start (invariant.logs.log_wellFormed follower)
      (invariant.logs.leaderLog_wellFormed _) batch with
    ⟨final, next, result, appended⟩ | ⟨final, slot, reached, result, appended, conflict⟩
  · refine ⟨final, result, fun before => ?_⟩
    have nonempty := List.length_pos_of_ne_nil (repairing.entries_ne_nil before)
    rcases appended.adopts with ⟨held, -⟩ | ⟨-, nextEq⟩
    · -- the follower does not have the first entry of the batch
      have le := appended.le
      obtain ⟨source, found⟩ : ∃ source,
          entryAt (a.leaderLog (s.replicas leader).currentRound) (prev + 1) = some source :=
        exists_entryAt (Nat.succ_pos prev) (by omega)
      have heldFound : entryAt (a.log follower) (prev + 1) = some source := by
        apply entryAt_of_isPrefix held
        rw [entryAt_take, if_pos (by omega), found]
      have oneKept := refinesL.log.find_of_entryAt (Nat.lt_succ_of_le repairing.leaderTrim)
        (logL ▸ found)
      have heldKept := refinesF.log.find_of_entryAt (Nat.lt_succ_of_le trimmed) heldFound
      exact absurd rfl (repairing.diverges _ oneKept _ heldKept)
    · rw [appended.holds.nextSlot, nextEq, List.length_take_of_le appended.le]
  · -- what the follower has committed is in the leader's log
    obtain ⟨held, source, heldFound, found, roundNe, committed⟩ := conflict
    rw [commitEq] at committed
    rw [← logL] at found
    have retained : (s.replicas follower).trimThrough ≤ reached := by
      have within := appended.trimmed
      rw [appended.frame] at within
      exact trimEq ▸ within
    rcases Nat.lt_or_ge (s.replicas leader).trimThrough (reached + 1) with kept | trimmedL
    · have agree := repairing.committed (reached + 1) committed
        _ (refinesL.log.find_of_entryAt kept found)
        _ (refinesF.log.find_of_entryAt (Nat.lt_succ_of_le retained) heldFound)
      exact absurd agree.1.symm roundNe
    · have same := (sheltered.entryAt_eq invariant leader follower).2 (reached + 1) trimmedL
      rw [heldFound, found] at same
      cases same
      exact absurd rfl roundNe

theorem System.Reachable.matchIndex_le (reachable : s.Reachable)
    (leads : (s.replicas leader).role = .leader) (peer : Fin n) :
    (s.replicas leader).matchIndex peer ≤ (s.replicas leader).lastLogIndex := by
  obtain ⟨a, implements, -⟩ := reachable.sheltered
  have refines := (implements.settled leader).1
  rw [refines.log.lastLogIndex, refines.log_eq_leaderLog implements.invariant leads]
  exact (refines.matched leads peer).trans (implements.invariant.logs.acked_le _ _)

/-- The follower has the leader's log as far as the leader knows, so it accepts
proposals from there on. -/
theorem Implements.matches_of_matchIndex {a : Abstract n} (implements : Implements False a s)
    (leads : (s.replicas leader).role = .leader)
    (round : (s.replicas follower).currentRound = (s.replicas leader).currentRound)
    (le : prev ≤ (s.replicas leader).matchIndex follower)
    (leaderTrim : (s.replicas leader).trimThrough ≤ prev)
    (followerTrim : (s.replicas follower).trimThrough ≤ prev)
    (within : prev ≤ (s.replicas follower).lastLogIndex) : Matches s leader follower prev := by
  have holds := (implements.settled follower).1.log
  have same := implements.entryAt_eq_of_acked leads round prev le
  rw [holds.lastLogIndex] at within
  rw [Matches, (implements.settled leader).1.log.roundAt leaderTrim, Consensus.roundAt, ← same]
  exact holds.prefixMatches followerTrim within

/-- An accepted proposal from behind `prev` on: the leader knows that the follower
has its log up to slot `known`, and it proposes what lies behind or is content. -/
structure Accepted (s t : System n) (leader follower : Fin n) (prev known : Nat) : Prop where
  reachable : t.Reachable
  leads : (t.replicas leader).role = .leader
  round : (t.replicas follower).currentRound = (t.replicas leader).currentRound
  last : (t.replicas leader).lastLogIndex = (s.replicas leader).lastLogIndex
  matched : (t.replicas leader).matchIndex follower =
    max ((s.replicas leader).matchIndex follower) known
  others : ∀ peer, peer ≠ follower →
    (t.replicas leader).matchIndex peer = (s.replicas leader).matchIndex peer
  queue : (t.replicas leader).pendingClientRequests =
    (s.replicas leader).pendingClientRequests
  done : (∀ peer, (s.replicas leader).lastLogIndex ≤ (t.replicas leader).matchIndex peer) →
    (s.replicas leader).roundAt (s.replicas leader).lastLogIndex =
      (s.replicas leader).currentRound → (t.replicas leader).Done
  le : prev ≤ known
  ends : prev < (s.replicas leader).lastLogIndex →
    prev < known ∧ (t.replicas follower).lastLogIndex = known
  next : (t.replicas leader).trimThrough ≤ known →
    (t.replicas leader).nextIndex follower = known + 1
  proposed : (t.replicas leader).trimThrough ≤ known → known < (s.replicas leader).lastLogIndex →
    t.proposed leader follower known ∈ t.network
  turn : (t.replicas leader).trimThrough ≤ known → known < (s.replicas leader).lastLogIndex →
    ∀ fuel, s.exchange (fuel + 2) (s.proposed leader follower prev) =
      t.exchange fuel (t.proposed leader follower known)
  stop : (t.replicas leader).trimThrough ≤ known → (s.replicas leader).lastLogIndex ≤ known →
    ∃ answer, System.sends (s.handle (s.proposed leader follower prev)).2 = [answer] ∧
      System.sends ((s.delivered (s.proposed leader follower prev)).handle answer).2 = [] ∧
      (s.delivered (s.proposed leader follower prev)).delivered answer = t

theorem Repairing.accept (repairing : Repairing s leader follower prev)
    (matching : Matches s leader follower prev) :
    ∃ t known, Accepted s t leader follower prev known := by
  have leaderIndex := repairing.reachable.index leader
  have followerIndex := repairing.reachable.index follower
  have other := repairing.other
  have inFlight := repairing.proposed
  obtain ⟨final, appended, ends⟩ := repairing.append matching
  have nonempty := fun before => List.length_pos_of_ne_nil (repairing.entries_ne_nil before)
  generalize ((s.replicas leader).proposal (prev + 1)).entries.length = count
    at appended ends nonempty
  -- the acknowledgement
  have toLeader : ((s.replicas leader).proposal (prev + 1)).leader = leader := leaderIndex
  have handled := @Replica.handlePropose_match n (s.replicas follower) final
    ((s.replicas leader).proposal (prev + 1)) (prev + count) repairing.round matching
    (by rw [toLeader]; exact appended)
  rw [toLeader, followerIndex] at handled
  obtain ⟨roundF, nextSlotF, acks⟩ := handled
  set msg : AckMessage n :=
    ⟨(s.replicas leader).currentRound, follower, true, prev + count, prev + count + 1⟩
  set ack : Packet n := ⟨leader, .ack msg⟩
  replace acks : System.sends (s.handle (s.proposed leader follower prev)).2 = [ack] := acks
  set t := s.delivered (s.proposed leader follower prev)
  -- what the leader makes of it
  have answered : t.handle ack = (s.replicas leader).handleAck msg :=
    System.handle_delivered other.symm
  have heard := @Replica.handleAck_accepted n (s.replicas leader) msg repairing.leads rfl rfl
    (by rw [leaderIndex]; exact other)
  rw [← answered] at heard
  set u := t.delivered ack
  have leaderU : u.replicas leader = (t.handle ack).1 := @System.delivered_target n t ack
  have followerU : u.replicas follower =
      ((s.replicas follower).handlePropose ((s.replicas leader).proposal (prev + 1))).1 :=
    (@System.delivered_other n t ack follower other).trans
      (@System.delivered_target n s (s.proposed leader follower prev))
  have nextMax : max ((s.replicas leader).nextIndex follower) (prev + count + 1) =
      prev + count + 1 := by
    rw [repairing.next]
    omega
  have answers := heard.answers
  rw [← leaderU, show msg.server = follower from rfl,
    show msg.nextIndex = prev + count + 1 from rfl, nextMax] at answers
  have reply : (u.replicas leader).trimThrough ≤ prev + count →
      prev + count < (s.replicas leader).lastLogIndex →
      System.sends (t.handle ack).2 = [u.proposed leader follower (prev + count)] := by
    intro retained before
    obtain ⟨nextU, sendsU⟩ := answers (Nat.lt_succ_of_le retained)
    rw [nextU, if_pos (Nat.succ_le_of_lt before)] at sendsU
    exact sendsU
  refine ⟨u, prev + count, ?_⟩
  constructor
  case reachable =>
    exact (repairing.reachable.delivered inFlight).delivered (System.mem_delivered acks)
  case leads =>
    rw [leaderU, heard.role]
    exact repairing.leads
  case round =>
    rw [followerU, roundF, leaderU, heard.round]
    rfl
  case last => rw [leaderU, Replica.lastLogIndex, heard.nextSlot, Replica.lastLogIndex]
  case matched =>
    rw [leaderU, heard.matched]
    exact Function.update_self ..
  case others =>
    intro peer different
    rw [leaderU, heard.matched]
    exact Function.update_of_ne different _ _
  case queue => rw [leaderU, heard.queue]
  case done =>
    obtain ⟨a, implements, -⟩ := repairing.reachable.sheltered
    rw [leaderU]
    exact heard.done (implements.settled leader).bounded
  case le => exact Nat.le_add_right prev count
  case ends =>
    intro before
    refine ⟨Nat.lt_add_of_pos_right (nonempty before), ?_⟩
    rw [followerU, Replica.lastLogIndex, nextSlotF, ends before, Nat.add_sub_cancel]
  case next => exact fun retained => (answers (Nat.lt_succ_of_le retained)).1
  case proposed => exact fun retained before => System.mem_delivered (reply retained before)
  case turn =>
    exact fun retained before fuel =>
      System.exchange_turn fuel inFlight acks (reply retained before)
  case stop =>
    intro retained atEnd
    obtain ⟨nextU, sendsU⟩ := answers (Nat.lt_succ_of_le retained)
    rw [nextU, if_neg (by omega)] at sendsU
    exact ⟨ack, acks, sendsU, rfl⟩

/-- As far as the leader knows that the follower has its log, they agree. -/
theorem Accepted.agree {t : System n} {known : Nat}
    (accepted : Accepted s t leader follower prev known) :
    ∀ slot ≤ known, t.AgreeAt leader follower slot := by
  obtain ⟨a, implements, -⟩ := accepted.reachable.sheltered
  intro slot le
  have within : slot ≤ (t.replicas leader).matchIndex follower :=
    le.trans (accepted.matched ▸ le_max_right _ _)
  exact implements.agreeAt_of_entryAt_eq
    (implements.entryAt_eq_of_acked accepted.leads accepted.round slot within)

/-- The end of an exchange: the leader knows that the follower has its log. -/
structure Repaired (s : System n) (leader follower : Fin n) (last : Nat) : Prop where
  ends : (s.replicas leader).lastLogIndex = last
  matched : (s.replicas leader).matchIndex follower = last
  agree : ∀ slot ≤ last, s.AgreeAt leader follower slot

/-- Where the follower has the whole log the exchange is over. -/
theorem Accepted.repaired {t : System n} {known : Nat}
    (accepted : Accepted s t leader follower prev known)
    (inFlight : s.proposed leader follower prev ∈ s.network)
    (atEnd : (s.replicas leader).lastLogIndex ≤ known) :
    Repaired t leader follower (s.replicas leader).lastLogIndex ∧
      ∀ fuel, s.exchange (fuel + 2) (s.proposed leader follower prev) = some t := by
  have bound := accepted.reachable.matchIndex_le accepted.leads follower
  have trimmed := accepted.reachable.trimThrough_le leader leader
  have matched := accepted.matched
  rw [accepted.last] at bound trimmed
  obtain ⟨answer, answers, silent, rfl⟩ := accepted.stop (trimmed.trans atEnd) atEnd
  refine ⟨⟨accepted.last, by omega, fun slot le => accepted.agree slot (le.trans atEnd)⟩, ?_⟩
  exact fun fuel => System.exchange_end fuel inFlight answers silent

/-- Elsewhere the next proposal starts where the logs agree. -/
theorem Accepted.repairing {t : System n} {known : Nat}
    (accepted : Accepted s t leader follower prev known) (other : follower ≠ leader)
    (before : known < (s.replicas leader).lastLogIndex) :
    Repairing t leader follower known ∧ Matches t leader follower known ∧
      ∀ fuel, s.exchange (fuel + 2) (s.proposed leader follower prev) =
        t.exchange fuel (t.proposed leader follower known) := by
  obtain ⟨a, implements, -⟩ := accepted.reachable.sheltered
  obtain ⟨-, lastF⟩ := accepted.ends (accepted.le.trans_lt before)
  have holds := (implements.settled follower).1.log
  have committed : (t.replicas follower).commitIndex ≤ known := by
    rw [← lastF, holds.lastLogIndex]
    exact holds.committed
  have leaderTrim : (t.replicas leader).trimThrough ≤ known :=
    lastF ▸ accepted.reachable.trimThrough_le leader follower
  have followerTrim : (t.replicas follower).trimThrough ≤ known :=
    lastF ▸ accepted.reachable.trimThrough_le follower follower
  refine ⟨?_, ?_, accepted.turn leaderTrim before⟩
  · constructor
    case reachable => exact accepted.reachable
    case other => exact other
    case leads => exact accepted.leads
    case round => exact accepted.round.le
    case next => exact accepted.next leaderTrim
    case within => exact accepted.last ▸ before.le
    case leaderTrim => exact leaderTrim
    case followerTrim => exact followerTrim
    case proposed => exact accepted.proposed leaderTrim before
    case committed => exact fun slot le => accepted.agree slot (le.trans committed)
    case diverges =>
      intro one _ held heldFound
      rw [accepted.reachable.find_beyond (by omega)] at heldFound
      contradiction
  · exact implements.matches_of_matchIndex accepted.leads accepted.round
      (accepted.matched ▸ le_max_right _ _) leaderTrim followerTrim lastF.ge

/-- Once the follower accepts, the previous slot goes up to the end of the log. -/
theorem Repairing.repaired_of_matches (repairing : Repairing s leader follower prev)
    (matching : Matches s leader follower prev) :
    ∃ fuel final, s.exchange fuel (s.proposed leader follower prev) = some final ∧
      Repaired final leader follower (s.replicas leader).lastLogIndex := by
  induction leftEq : (s.replicas leader).lastLogIndex - prev using Nat.strong_induction_on
    generalizing s prev with
  | h left ih =>
      obtain ⟨t, known, accepted⟩ := repairing.accept matching
      rcases Nat.lt_or_ge known (s.replicas leader).lastLogIndex with before | atEnd
      · have above := (accepted.ends (accepted.le.trans_lt before)).1
        obtain ⟨repairingT, matchesT, turn⟩ := accepted.repairing repairing.other before
        have less : (s.replicas leader).lastLogIndex - known < left := by omega
        obtain ⟨fuel, final, ended, repaired⟩ :=
          ih _ less repairingT matchesT (by rw [accepted.last])
        exact ⟨fuel + 2, final, (turn fuel).trans ended, accepted.last ▸ repaired⟩
      · obtain ⟨repaired, ended⟩ := accepted.repaired repairing.proposed atEnd
        exact ⟨2, t, ended 0, repaired⟩

/-- Until then it goes down. -/
theorem Repairing.repaired (repairing : Repairing s leader follower prev) :
    ∃ fuel final, s.exchange fuel (s.proposed leader follower prev) = some final ∧
      Repaired final leader follower (s.replicas leader).lastLogIndex := by
  induction prev using Nat.strong_induction_on generalizing s with
  | h prev ih =>
      by_cases matching : Matches s leader follower prev
      · exact repairing.repaired_of_matches matching
      · obtain ⟨t, earlier, below, repairingT, lastEq, turn⟩ := repairing.back matching
        obtain ⟨fuel, final, ended, repaired⟩ := ih earlier below repairingT
        exact ⟨fuel + 2, final, (turn fuel).trans ended, lastEq ▸ repaired⟩

end Rounds

end DoomDraft.Paxos
