import DoomDraft.Paxos.Repair
import DoomDraft.Paxos.Requests

/-!
# What a leader discards

A leader whose log every replica has retains at most `trim_retention_` entries of
it.  What a replica discards all others have, so that any one can repair any other
from what it retains.
-/

namespace DoomDraft.Paxos

open Pancy Consensus

variable {n : Nat}

theorem System.Reachable.booked {s : System n} (reachable : s.Reachable) (j : Fin n) :
    Booked (s.replicas j) := by
  obtain ⟨initialLeader, actions, run⟩ := reachable
  exact booked_of_perform run j

/-- A serial that nobody has asked for is neither answered nor admitted. -/
theorem System.Carries.fresh {s : System n} {P : Request → Prop} (carries : s.Carries P)
    (reachable : s.Reachable) {serial : Nat} (never : ∀ req, P req → req.serial ≠ serial)
    (j : Fin n) :
    (s.replicas j).responseCache serial = none ∧ serial ∉ (s.replicas j).pendingClientSerials := by
  obtain ⟨a, implements, -⟩ := reachable.sheltered
  have booked := reachable.booked j
  constructor
  · have state := (implements.settled j).1.state
    have cache : (s.replicas j).responseCache = (replay (s.history.executed j)).2 := by
      rw [state.executed, ← state.replayed]
    rw [cache, ← Option.not_isSome_iff_eq_none, Option.isSome_iff_exists]
    rintro ⟨resp, cached⟩
    obtain ⟨before, entry, isPrefix, asked, -⟩ := exists_first_of_replay cached
    have executed : entry ∈ s.history.executed j := isPrefix.subset (by simp)
    obtain ⟨⟨i, event⟩, happened, passed⟩ := List.mem_filterMap.mp executed
    cases event with
    | applied other =>
        have same : other = entry := by
          simp only at passed
          split at passed
          · exact Option.some.inj passed
          · cases passed
        exact never _ (carries.happened i _ happened) (same ▸ asked)
    | _ => cases passed
  · rw [booked.admitted]
    rintro (queued | logged)
    · obtain ⟨req, member, asked⟩ := List.mem_map.mp queued
      exact never req ((carries.replicas j).queued req member) asked
    · obtain ⟨slot, waiting⟩ := Option.isSome_iff_exists.mp logged
      obtain ⟨-, -, entry, found, asked, -⟩ := booked.logged serial slot waiting
      exact never _ ((carries.replicas j).logged slot entry found) asked

namespace Replica

/-- A leader that has logged `req`. -/
def logging (self : Replica n) (req : Request) : Replica n :=
  { self with
    pendingClientRequests := []
    nextSlot := self.nextSlot + 1
    log := self.log.emplace self.nextSlot ⟨self.nextSlot, self.currentRound, req⟩
    pendingClients :=
      if (self.pendingClients req.serial).isSome then self.pendingClients
      else Function.update self.pendingClients req.serial (some self.nextSlot)
    matchIndex := Function.update self.matchIndex self.index self.nextSlot
    nextIndex := Function.update self.nextIndex self.index (self.nextSlot + 1) }

/-- Admitting the only request that waits. -/
theorem handleClientRequest_fresh {self : Replica n} {req : Request}
    (leader : self.role = .leader) (idle : self.pendingClientRequests = [])
    (fresh : self.responseCache req.serial = none ∧ req.serial ∉ self.pendingClientSerials)
    (now : Nat) :
    self.handleClientRequest now req = ({ self with
      pendingClientSerials := insert req.serial self.pendingClientSerials
      pendingClientRequests := [req]
      clientBatchDeadline := some (self.clientBatchDeadline.getD (now + clientBatchWindow)) },
      []) := by
  unfold handleClientRequest
  rw [if_neg (not_not.mpr leader), fresh.1]
  simp only [if_neg fresh.2, idle, List.nil_append, List.length_singleton]
  exact if_neg (by decide)

theorem trimLogPrefix_of_kept {self : Replica n}
    (kept : ∀ slot entry, self.log.find? slot = some entry → self.trimThrough < slot) :
    self.trimLogPrefix = (self, []) := by
  unfold trimLogPrefix
  cases self.log.entries.length with
  | zero => rfl
  | succ fuel =>
      unfold trimLoop
      split
      · rfl
      · rename_i slot entry first
        rw [if_neg]
        exact Nat.not_le.mpr (kept slot entry (OrderedMap.find?_of_first? first))

/-- Where only the leader has the last entry, it goes on with nothing. -/
theorem commitAndExecute_of_alone {self : Replica n} (several : 1 < n)
    (leader : self.role = .leader)
    (others : ∀ peer, peer ≠ self.index → self.matchIndex peer ≤ self.commitIndex)
    (applied : self.lastApplied = self.commitIndex)
    (retained : self.commitIndex ≤ self.trimThrough + trimRetention)
    (kept : ∀ slot entry, self.log.find? slot = some entry → self.trimThrough < slot) :
    (self.updateCommitIndex.andThen applyCommittedEntries).andThen updateTrimWatermark =
      (self, []) := by
  have scan : self.commitScan (self.lastLogIndex - self.commitIndex) = none := by
    cases found : self.commitScan (self.lastLogIndex - self.commitIndex) with
    | none => rfl
    | some idx =>
        obtain ⟨above, within, -, quorum⟩ := commitScan_spec found
        have enough : n / 2 + 1 ≤ self.replicated idx := of_decide_eq_true quorum
        have nobody : (List.finRange n).countP
            (fun s => s ≠ self.index ∧ idx ≤ self.matchIndex s) = 0 := by
          rw [List.countP_eq_zero]
          intro peer _ both
          obtain ⟨other, le⟩ := of_decide_eq_true both
          have less := others peer other
          omega
        rw [replicated, nobody] at enough
        omega
  have commits : self.updateCommitIndex = (self, []) := by
    unfold updateCommitIndex
    rw [if_neg (not_not.mpr leader), scan]
  have executes : self.applyCommittedEntries = (self, []) := by
    unfold applyCommittedEntries
    rw [applied, Nat.sub_self]
    simp only [applyLoop, Outcome.andThen, trimLogPrefix_of_kept kept, List.nil_append]
  have trims : self.updateTrimWatermark = (self, []) := by
    unfold updateTrimWatermark
    rw [if_neg (not_not.mpr leader)]
    dsimp only
    generalize List.foldl _ _ _ = low
    rw [if_neg]
    split <;> omega
  simp only [Outcome.andThen, commits, executes, trims, List.nil_append]

/-- A leader that is done with its log, which every replica has, as the leader knows. -/
structure Level (replica : Replica n) : Prop where
  leads : replica.role = .leader
  bounded : Bounded replica
  kept : ∀ slot entry, replica.log.find? slot = some entry → replica.trimThrough < slot
  done : replica.Done
  matched : ∀ peer, peer ≠ replica.index → replica.matchIndex peer = replica.lastLogIndex
  next : ∀ peer, peer ≠ replica.index → replica.nextIndex peer = replica.lastLogIndex + 1

/-- What a leader sends that has logged `req`. -/
def proposals (self : Replica n) (req : Request) : List (Event n) :=
  (List.finRange n).flatMap fun peer => if peer = self.index then [] else
    [.send peer (.propose ((self.logging req).proposal (self.lastLogIndex + 1)))]

section Flush

variable {self : Replica n} {req : Request}

theorem Level.nextSlot (level : Level self) : self.nextSlot = self.lastLogIndex + 1 :=
  (Nat.succ_pred_eq_of_pos (Nat.zero_lt_of_lt level.bounded.committed)).symm

theorem Level.trimThrough_le (level : Level self) : self.trimThrough ≤ self.lastLogIndex :=
  level.bounded.trimmed.trans level.done.applied.le

theorem Level.broadcast_logging (level : Level self) (req : Request) :
    (self.logging req).broadcastPropose = (self.logging req, self.proposals req) := by
  have trimmed := level.trimThrough_le
  have others : ∀ peer, peer ≠ self.index →
      (self.logging req).nextIndex peer = self.lastLogIndex + 1 := fun peer other =>
    (Function.update_of_ne other _ _).trans (level.next peer other)
  have own : (self.logging req).nextIndex self.index = self.nextSlot + 1 :=
    Function.update_self _ _ _
  have retained : ∀ peer, (self.logging req).trimThrough < (self.logging req).nextIndex peer := by
    intro peer
    change self.trimThrough < _
    by_cases same : peer = self.index
    · rw [same, own, level.nextSlot]
      omega
    · rw [others peer same]
      omega
  rw [@broadcastPropose_eq n (self.logging req) level.leads retained]
  refine Prod.ext rfl (List.flatMap_congr fun peer _ => ?_)
  change (if peer = self.index then _ else _) = _
  split
  · rfl
  · rename_i other
    rw [others peer other]

theorem Level.flushBatch (level : Level self) (several : 1 < n)
    (queue : self.pendingClientRequests = [req]) :
    self.flushBatch = (self.logging req, self.proposals req) := by
  have logs : self.flushBatch = (((self.logging req).broadcastPropose.andThen
      updateCommitIndex).andThen applyCommittedEntries).andThen updateTrimWatermark := by
    have one : self.appendRequests 1 = { self with
        pendingClientRequests := []
        nextSlot := self.nextSlot + 1
        log := self.log.emplace self.nextSlot ⟨self.nextSlot, self.currentRound, req⟩
        pendingClients :=
          if (self.pendingClients req.serial).isSome then self.pendingClients
          else Function.update self.pendingClients req.serial (some self.nextSlot) } := by
      simp only [appendRequests, queue]
    unfold Replica.flushBatch
    rw [queue, List.length_singleton, show min 1 appendBatchSize = 1 from rfl]
    dsimp only
    rw [one]
    rfl
  have finishes := @commitAndExecute_of_alone n (self.logging req) several level.leads
    (fun peer (other : peer ≠ self.index) => by
      change Function.update self.matchIndex self.index _ peer ≤ self.commitIndex
      rw [Function.update_of_ne other, level.matched peer other, level.done.commit])
    (level.done.applied.trans level.done.commit.symm)
    (level.done.commit.trans_le level.done.retained)
    (fun slot entry found => by
      change self.trimThrough < slot
      have trimmed := level.trimThrough_le
      change (self.log.emplace _ _).find? slot = some entry at found
      rw [OrderedMap.find?_emplace] at found
      split at found
      · rename_i same
        rw [level.nextSlot] at same
        omega
      · exact level.kept slot entry found)
  rw [logs, level.broadcast_logging, Outcome.andThen_assoc, Outcome.andThen_assoc, Outcome.andThen]
  simp only [← Outcome.andThen_assoc, finishes, List.append_nil]

/-- It logs the request that waits and proposes it. -/
theorem Level.flush (level : Level self) (several : 1 < n)
    (queue : self.pendingClientRequests = [req]) (now : Nat) :
    self.flushPendingClientRequests now =
      ({ self.logging req with clientBatchDeadline := none }, self.proposals req) := by
  unfold flushPendingClientRequests
  rw [if_neg (by simp [level.leads, queue]), queue, List.length_singleton]
  have loop : flushLoop 1 self = (self.logging req, self.proposals req) := by
    rw [flushLoop, if_pos ⟨level.leads, by simp [queue]⟩, level.flushBatch several queue]
    exact Prod.ext rfl (List.append_nil _)
  rw [loop]
  simp [Outcome.andThen, logging]

end Flush

end Replica

/-! ## Writes that are acknowledged -/

/-- Two replicas are written as numerals. -/
instance pairLiteral : NeZero 2 := ⟨Nat.succ_ne_zero 1⟩

/-- Writes, each logged at once and acknowledged by the other replica. -/
def acknowledgedWrites (count : Nat) : List (Action 2) :=
  (List.range count).flatMap fun serial =>
    [.request 0 0 (writeOf serial), .flush 0 0, .deliver 0, .deliver 0]

/-- Both replicas have the whole log of a run, nothing is in flight and nobody waits. -/
structure InStep (s : System 2) (count : Nat) : Prop where
  run : (System.initial 0).perform (acknowledgedWrites count) = some s
  level : (s.replicas 0).Level
  idle : (s.replicas 0).pendingClientRequests = []
  last : (s.replicas 0).lastLogIndex = count
  round : (s.replicas 1).currentRound = (s.replicas 0).currentRound
  follows : (s.replicas 1).lastLogIndex = count
  quiet : s.network = []

theorem acknowledgedWrites_succ (count : Nat) :
    acknowledgedWrites (count + 1) = acknowledgedWrites count ++
      [.request 0 0 (writeOf count), .flush 0 0, .deliver 0, .deliver 0] := by
  simp [acknowledgedWrites, List.range_succ]

section InStep

variable {s : System 2} {count : Nat}

theorem InStep.reachable (inStep : InStep s count) : s.Reachable :=
  ⟨0, _, inStep.run⟩

/-- The serial of the next write is new. -/
theorem InStep.fresh (inStep : InStep s count) :
    (s.replicas 0).responseCache count = none ∧ count ∉ (s.replicas 0).pendingClientSerials := by
  have carries : s.Carries fun req => req.serial < count := by
    refine System.Carries.perform inStep.run fun action member => ?_
    obtain ⟨serial, below, listed⟩ := List.mem_flatMap.mp member
    simp only [List.mem_cons, List.not_mem_nil, or_false] at listed
    rcases listed with rfl | rfl | rfl | rfl
    · exact List.mem_range.mp below
    all_goals trivial
  exact carries.fresh inStep.reachable (fun req below => below.ne) 0

/-- The leader has logged and proposed the next write. -/
structure Proposing (s u : System 2) (count : Nat) : Prop where
  stepped : s.perform [.request 0 0 (writeOf count), .flush 0 0] = some u
  leader : ∃ serials, u.replicas 0 = { (s.replicas 0).logging (writeOf count) with
    pendingClientSerials := serials
    clientBatchDeadline := none }
  follower : u.replicas 1 = s.replicas 1
  network : u.network = [u.proposed 0 1 count]

theorem InStep.propose (inStep : InStep s count) : ∃ u, Proposing s u count := by
  have level := inStep.level
  have index := inStep.reachable.index 0
  have admits := @Replica.handleClientRequest_fresh 2 (s.replicas 0) (writeOf count) level.leads
    inStep.idle inStep.fresh 0
  generalize insert (writeOf count).serial (s.replicas 0).pendingClientSerials = serials at admits
  generalize (s.replicas 0).clientBatchDeadline.getD (0 + Replica.clientBatchWindow) = deadline
    at admits
  obtain ⟨queued, queuedEq⟩ : ∃ queued : Replica 2, queued = { s.replicas 0 with
      pendingClientSerials := serials
      pendingClientRequests := [writeOf count]
      clientBatchDeadline := some deadline } := ⟨_, rfl⟩
  rw [← queuedEq] at admits
  have levelQ : queued.Level := by
    rw [queuedEq]
    exact ⟨level.leads, { level.bounded with }, level.kept, { level.done with }, level.matched,
      level.next⟩
  have queue : queued.pendingClientRequests = [writeOf count] := by rw [queuedEq]
  have flushes := levelQ.flush (by decide) queue 0
  obtain ⟨t, admitted⟩ : ∃ t : System 2, t = s.record 0 s.network (queued, []) := ⟨_, rfl⟩
  obtain ⟨u, flushed⟩ : ∃ u : System 2, u = t.record 0 t.network
      (queued.flushPendingClientRequests 0) := ⟨_, rfl⟩
  have first : s.step (.request 0 0 (writeOf count)) = some t := by
    rw [admitted, ← admits]
    rfl
  have atT : t.replicas 0 = queued := by
    rw [admitted]
    exact s.replicas_record 0 _ _
  have second : t.step (.flush 0 0) = some u := by
    have enabled : (t.replicas 0).role = .leader ∧ System.batching (t.replicas 0) = true := by
      rw [atT, queuedEq]
      exact ⟨level.leads, by simp [System.batching]⟩
    rw [flushed, System.step, if_pos enabled, atT]
  have atU : u.replicas 0 =
      { queued.logging (writeOf count) with clientBatchDeadline := none } := by
    rw [flushed, flushes]
    exact t.replicas_record 0 _ _
  refine ⟨u, ?_, ⟨serials, ?_⟩, ?_, ?_⟩
  · rw [System.perform, Transition.perform, first, Option.bind_some, Transition.perform, second]
    rfl
  · rw [atU, queuedEq]
    rfl
  · rw [flushed, admitted]
    rfl
  · have sent : System.sends (queued.proposals (writeOf count)) =
        [⟨1, .propose ((queued.logging (writeOf count)).proposal (queued.lastLogIndex + 1))⟩] := by
      have own : queued.index = 0 := by
        rw [queuedEq]
        exact index
      simp [Replica.proposals, own, List.finRange_succ, System.sends]
    have last : queued.lastLogIndex = count := by
      rw [queuedEq]
      exact inStep.last
    have quiet : t.network = [] := by
      rw [admitted, System.record, inStep.quiet]
      rfl
    rw [System.proposed, atU, flushed, flushes, System.record, quiet, sent, last]
    rfl

/-- The leader waits for the other replica to have its last entry. -/
theorem Proposing.repairing {u : System 2} (proposing : Proposing s u count)
    (inStep : InStep s count) : Repairing u 0 1 count ∧ Matches u 0 1 count := by
  have level := inStep.level
  have index := inStep.reachable.index 0
  obtain ⟨serials, leader⟩ := proposing.leader
  have reachable : u.Reachable := by
    refine ⟨0, acknowledgedWrites count ++ [.request 0 0 (writeOf count), .flush 0 0], ?_⟩
    rw [System.perform, Transition.perform_append, ← System.perform, inStep.run]
    exact proposing.stepped
  have other : (1 : Fin 2) ≠ (s.replicas 0).index := by
    rw [index]
    decide
  have leads : (u.replicas 0).role = .leader := by
    rw [leader]
    exact level.leads
  have round : (u.replicas 1).currentRound = (u.replicas 0).currentRound := by
    rw [leader, proposing.follower]
    exact inStep.round
  have matched : (u.replicas 0).matchIndex 1 = count := by
    rw [leader]
    exact (Function.update_of_ne other _ _).trans ((level.matched 1 other).trans inStep.last)
  have follows : (u.replicas 1).lastLogIndex = count := by
    rw [proposing.follower, inStep.follows]
  have leaderTrim : (u.replicas 0).trimThrough ≤ count :=
    follows ▸ reachable.trimThrough_le 0 1
  have followerTrim : (u.replicas 1).trimThrough ≤ count :=
    follows ▸ reachable.trimThrough_le 1 1
  obtain ⟨a, implements, -⟩ := reachable.sheltered
  have committed : (u.replicas 1).commitIndex ≤ count := by
    have holds := (implements.settled 1).1.log
    rw [← follows, holds.lastLogIndex]
    exact holds.committed
  refine ⟨?_, implements.matches_of_matchIndex leads round matched.ge leaderTrim followerTrim
    follows.ge⟩
  constructor
  case reachable => exact reachable
  case other => decide
  case leads => exact leads
  case round => exact round.le
  case next =>
    rw [leader]
    refine (Function.update_of_ne other _ _).trans ((level.next 1 other).trans ?_)
    rw [inStep.last]
  case within =>
    rw [leader]
    change count ≤ (s.replicas 0).nextSlot + 1 - 1
    rw [level.nextSlot, inStep.last]
    omega
  case leaderTrim => exact leaderTrim
  case followerTrim => exact followerTrim
  case proposed => simp [proposing.network]
  case committed =>
    intro slot le
    apply implements.agreeAt_of_entryAt_eq
    exact implements.entryAt_eq_of_acked leads round slot (matched ▸ le.trans committed)
  case diverges =>
    intro one _ held heldFound
    rw [reachable.find_beyond (by omega)] at heldFound
    cases heldFound

/-- The last entry of the leader is of its round. -/
theorem Proposing.roundAt_last {u : System 2} (proposing : Proposing s u count)
    (inStep : InStep s count) :
    (u.replicas 0).roundAt (count + 1) = (u.replicas 0).currentRound := by
  obtain ⟨serials, leader⟩ := proposing.leader
  have trimmed := inStep.level.trimThrough_le
  have slot : (s.replicas 0).nextSlot = count + 1 :=
    inStep.level.nextSlot.trans (congrArg Nat.succ inStep.last)
  have beyond : (s.replicas 0).log.find? (count + 1) = none := by
    apply inStep.reachable.find_beyond
    rw [inStep.last]
    exact Nat.lt_succ_self count
  have found : ((s.replicas 0).logging (writeOf count)).log.find? (count + 1) =
      some ⟨count + 1, (s.replicas 0).currentRound, writeOf count⟩ := by
    change ((s.replicas 0).log.emplace _ _).find? (count + 1) = _
    rw [slot, OrderedMap.find?_emplace, if_pos rfl, beyond]
    rfl
  rw [leader, Replica.roundAt, if_neg (Nat.succ_ne_zero count), if_neg]
  · dsimp only
    rw [found]
    rfl
  · change count + 1 ≠ (s.replicas 0).trimThrough
    rw [inStep.last] at trimmed
    omega

theorem Proposing.lastLogIndex {u : System 2} (proposing : Proposing s u count)
    (inStep : InStep s count) : (u.replicas 0).lastLogIndex = count + 1 := by
  obtain ⟨serials, leader⟩ := proposing.leader
  rw [leader]
  change (s.replicas 0).nextSlot + 1 - 1 = count + 1
  rw [inStep.level.nextSlot, inStep.last]
  rfl

/-- The other replica takes the entry. -/
theorem Proposing.accepted {u : System 2} (proposing : Proposing s u count)
    (inStep : InStep s count) :
    ∃ t, Accepted u t 0 1 count (count + 1) ∧ (t.replicas 0).lastLogIndex = count + 1 ∧
      (t.replicas 0).matchIndex 1 = count + 1 := by
  obtain ⟨repairing, matching⟩ := proposing.repairing inStep
  have lastU := proposing.lastLogIndex inStep
  obtain ⟨t, known, accepted⟩ := repairing.accept matching
  obtain ⟨above, -⟩ := accepted.ends (by omega)
  have lastT := accepted.last.trans lastU
  have bound := accepted.reachable.matchIndex_le accepted.leads 1
  have known_le := accepted.matched ▸ le_max_right ((u.replicas 0).matchIndex 1) known
  obtain rfl : known = count + 1 := by omega
  exact ⟨t, accepted, lastT, by omega⟩

/-- The proposal and its acknowledgement are all that is delivered. -/
theorem Proposing.delivers {u t : System 2} (proposing : Proposing s u count)
    (inStep : InStep s count) (accepted : Accepted u t 0 1 count (count + 1)) :
    u.perform [.deliver 0, .deliver 0] = some t ∧ t.network = [] := by
  have inFlight := (proposing.repairing inStep).1.proposed
  have trimmed : (t.replicas 0).trimThrough ≤ count + 1 :=
    (accepted.reachable.trimThrough_le 0 0).trans
      (accepted.last.trans (proposing.lastLogIndex inStep)).le
  obtain ⟨answer, answers, silent, ends⟩ :=
    accepted.stop trimmed (proposing.lastLogIndex inStep).le
  obtain ⟨v, delivered⟩ : ∃ v, v = u.delivered (u.proposed 0 1 count) := ⟨_, rfl⟩
  rw [← delivered] at silent ends
  have network : v.network = [answer] := by
    rw [delivered, System.delivered, System.record, answers, proposing.network]
    simp
  have first : u.step (.deliver 0) = some v := by
    have stepped := System.step_deliver inFlight
    rwa [proposing.network, List.idxOf_cons_self, ← delivered] at stepped
  have second : v.step (.deliver 0) = some t := by
    have waits : answer ∈ v.network := by simp [network]
    have stepped := System.step_deliver waits
    rwa [network, List.idxOf_cons_self, ends] at stepped
  constructor
  · simp only [System.perform, Transition.perform, first, second, Option.bind_some]
  · rw [← ends, System.delivered, System.record, silent, network]
    simp

/-- The leader is done with the entry. -/
theorem Proposing.level {u t : System 2} (proposing : Proposing s u count)
    (inStep : InStep s count) (accepted : Accepted u t 0 1 count (count + 1))
    (last : (t.replicas 0).lastLogIndex = count + 1)
    (theirs : (t.replicas 0).matchIndex 1 = count + 1) : (t.replicas 0).Level := by
  obtain ⟨serials, leader⟩ := proposing.leader
  have lastU := proposing.lastLogIndex inStep
  have own : (t.replicas 0).matchIndex 0 = count + 1 := by
    rw [accepted.others 0 (by decide), leader]
    change Function.update (s.replicas 0).matchIndex (s.replicas 0).index
      (s.replicas 0).nextSlot 0 = count + 1
    rw [inStep.reachable.index 0, Function.update_self, inStep.level.nextSlot, inStep.last]
  have all : ∀ peer, (t.replicas 0).matchIndex peer = count + 1 :=
    Fin.forall_fin_two.mpr ⟨own, theirs⟩
  have trimmed := accepted.reachable.trimThrough_le 0 0
  obtain ⟨a, implements, -⟩ := accepted.reachable.sheltered
  have settled := implements.settled 0
  constructor
  case leads => exact accepted.leads
  case bounded => exact settled.bounded
  case kept =>
    intro slot entry found
    exact ((settled.logShape.keys slot).mp (by rw [found]; rfl)).1
  case done =>
    refine accepted.done (fun peer => ?_) ?_
    · rw [lastU, all]
    · rw [lastU]
      exact proposing.roundAt_last inStep
  case matched => exact fun peer _ => (all peer).trans last.symm
  case next =>
    intro peer other
    rw [accepted.reachable.index 0] at other
    obtain rfl : peer = 1 := by omega
    rw [accepted.next (by omega), last]

/-- The other replica acknowledges the write, and the leader is done with it. -/
theorem InStep.write (inStep : InStep s count) : ∃ t, InStep t (count + 1) := by
  obtain ⟨u, proposing⟩ := inStep.propose
  obtain ⟨t, accepted, last, theirs⟩ := proposing.accepted inStep
  obtain ⟨delivers, quiet⟩ := proposing.delivers inStep accepted
  obtain ⟨-, follows⟩ := accepted.ends (by
    rw [proposing.lastLogIndex inStep]
    exact Nat.lt_succ_self count)
  refine ⟨t, ?_, proposing.level inStep accepted last theirs, ?_, last, accepted.round, follows,
    quiet⟩
  · have more : s.perform ([.request 0 0 (writeOf count), .flush 0 0] ++
        [.deliver 0, .deliver 0]) = some t := by
      rw [System.perform, Transition.perform_append, ← System.perform, proposing.stepped]
      exact delivers
    rw [acknowledgedWrites_succ, System.perform, Transition.perform_append, ← System.perform,
      inStep.run]
    exact more
  · obtain ⟨serials, leader⟩ := proposing.leader
    rw [accepted.queue, leader]
    rfl

end InStep

theorem inStep_initial : InStep (System.initial 0) 0 where
  run := rfl
  level := by
    have empty : ∀ slot, ((System.initial 0 : System 2).replicas 0).log.find? slot = none :=
      OrderedMap.find?_empty
    have nothing : ∀ slot entry,
        ((System.initial 0 : System 2).replicas 0).log.find? slot ≠ some entry := by
      intro slot entry
      rw [empty]
      exact (Option.some_ne_none entry).symm
    constructor
    case leads => rfl
    case bounded =>
      exact ⟨fun slot entry found => absurd found (nothing slot entry), le_rfl, le_rfl, Nat.one_pos⟩
    case kept => exact fun slot entry found => absurd found (nothing slot entry)
    case done => exact ⟨rfl, rfl, Nat.zero_le _⟩
    case matched =>
      rw [Fin.forall_fin_two]
      exact ⟨fun _ => rfl, fun _ => rfl⟩
    case next =>
      rw [Fin.forall_fin_two]
      exact ⟨fun _ => rfl, fun _ => rfl⟩
  idle := rfl
  last := rfl
  round := rfl
  follows := rfl
  quiet := rfl

theorem exists_inStep (count : Nat) : ∃ s, InStep s count := by
  induction count with
  | zero => exact ⟨_, inStep_initial⟩
  | succ count ih =>
      obtain ⟨s, inStep⟩ := ih
      exact inStep.write

/-- However many writes have been acknowledged, the leader has executed them all and
retains at most `trim_retention_` of them. -/
theorem retains_acknowledgedWrites (count : Nat) : ∃ s : System 2,
    (System.initial 0).perform (acknowledgedWrites count) = some s ∧
      (s.replicas 0).lastLogIndex = count ∧ (s.replicas 0).lastApplied = count ∧
      count ≤ (s.replicas 0).trimThrough + Replica.trimRetention := by
  obtain ⟨s, inStep⟩ := exists_inStep count
  have done := inStep.level.done
  exact ⟨s, inStep.run, inStep.last, done.applied.trans inStep.last,
    inStep.last ▸ done.retained⟩

/-! ## Trim safety -/

/-- Trim safety, in every run and for any two replicas `i` and `j`.  The trim
point of `i` is within the log of `j`, which has the round of `i` there unless
it has trimmed the slot itself; every entry that `i` has discarded `j` still has
or has discarded itself.  From the later of the two trim points on `i` can
repair `j`: `j` accepts the prefix, and `i` retains every slot beyond it. -/
theorem trim_safety {initialLeader : Fin n} {actions : List (Action n)} {s : System n}
    (run : (System.initial initialLeader).perform actions = some s) (i j : Fin n) :
    (s.replicas i).trimThrough ≤ (s.replicas j).lastLogIndex ∧
      ((s.replicas j).trimThrough ≤ (s.replicas i).trimThrough →
        0 < (s.replicas i).trimThrough →
        (s.replicas j).roundAt (s.replicas i).trimThrough = (s.replicas i).trimRound) ∧
      (∀ entry ∈ s.history.discarded i, s.HasAt j entry.slot entry) ∧
      ∃ start, start = max (s.replicas i).trimThrough (s.replicas j).trimThrough ∧
        (s.replicas j).prefixMatches start ((s.replicas i).roundAt start) = true ∧
        ∀ slot, start < slot → slot ≤ (s.replicas i).lastLogIndex →
          ((s.replicas i).log.find? slot).isSome = true := by
  obtain ⟨a, implements, sheltered⟩ := exists_sheltered run
  obtain ⟨within, same⟩ := sheltered.entryAt_eq implements.invariant i j
  have refinesI := (implements.settled i).1
  have refinesJ := (implements.settled j).1
  refine ⟨?_, ?_, ?_, _, rfl, ?_, ?_⟩
  · rw [refinesJ.log.lastLogIndex]
    exact within
  · exact implements.roundAt_trimThrough sheltered
  · intro entry member
    rw [refinesI.state.discarded] at member
    obtain ⟨slot, source, le, found, rfl⟩ := mem_storedThrough.mp member
    exact (implements.hasAt_iff ((same slot le).trans found) _).mpr rfl
  · exact implements.prefixMatches_trimThrough sheltered i j
  · intro slot above le
    refine ((implements.settled i).logShape.keys slot).mpr ⟨?_, le⟩
    exact (le_max_left _ _).trans_lt above

/-- The leader has discarded the first 16 entries at least. -/
theorem trim_safety_acknowledgedWrites : ∃ s : System 2,
    (System.initial 0).perform (acknowledgedWrites 272) = some s ∧
      16 ≤ (s.replicas 0).trimThrough ∧
      (s.replicas 0).trimThrough ≤ (s.replicas 1).lastLogIndex ∧
      (∀ entry ∈ s.history.discarded 0, s.HasAt 1 entry.slot entry) ∧
      ∃ start, start = max (s.replicas 0).trimThrough (s.replicas 1).trimThrough ∧
        (s.replicas 1).prefixMatches start ((s.replicas 0).roundAt start) = true ∧
        ∀ slot, start < slot → slot ≤ (s.replicas 0).lastLogIndex →
          ((s.replicas 0).log.find? slot).isSome = true := by
  obtain ⟨s, run, -, -, retained⟩ := retains_acknowledgedWrites 272
  obtain ⟨within, -, kept, repaired⟩ := trim_safety run 0 1
  unfold Replica.trimRetention at retained
  exact ⟨s, run, by omega, within, kept, repaired⟩

end DoomDraft.Paxos
