import DoomDraft.Paxos.TrimSafety

/-!
# A leader and one of its followers

What the handlers of `propose` and `ack` send to each other: every proposal is
answered by one acknowledgement, and an acknowledgement by one proposal or by
none.  An exchange delivers each of these packets as soon as it has been sent.
-/

namespace DoomDraft.Paxos

open Pancy Consensus

variable {n : Nat}

/-! ## Upkeep -/

theorem System.sends_append (first second : List (Event n)) :
    System.sends (first ++ second) = System.sends first ++ System.sends second :=
  List.filterMap_append

/-- A handler that sends nothing, and leaves alone what a replica knows of its
office, of its peers, of the end of its log and of the requests that wait. -/
structure Upkeep (before : Replica n) (outcome : Outcome n) : Prop where
  index : outcome.1.index = before.index
  role : outcome.1.role = before.role
  round : outcome.1.currentRound = before.currentRound
  nextSlot : outcome.1.nextSlot = before.nextSlot
  matched : outcome.1.matchIndex = before.matchIndex
  next : outcome.1.nextIndex = before.nextIndex
  queue : outcome.1.pendingClientRequests = before.pendingClientRequests
  silent : System.sends outcome.2 = []

namespace Upkeep

variable {before : Replica n} {outcome : Outcome n}

theorem pure (self : Replica n) : Upkeep self (self, []) :=
  ⟨rfl, rfl, rfl, rfl, rfl, rfl, rfl, rfl⟩

theorem andThen {next : Replica n → Outcome n} (first : Upkeep before outcome)
    (second : Upkeep outcome.1 (next outcome.1)) : Upkeep before (outcome.andThen next) where
  index := second.index.trans first.index
  role := second.role.trans first.role
  round := second.round.trans first.round
  nextSlot := second.nextSlot.trans first.nextSlot
  matched := second.matched.trans first.matched
  next := second.next.trans first.next
  queue := second.queue.trans first.queue
  silent := by
    simp only [Outcome.andThen, System.sends_append, first.silent, second.silent, List.append_nil]

/-- A handler that runs on after a change of other fields. -/
theorem since {now : Replica n} (upkeep : Upkeep now outcome) (same : Upkeep before (now, [])) :
    Upkeep before outcome where
  index := upkeep.index.trans same.index
  role := upkeep.role.trans same.role
  round := upkeep.round.trans same.round
  nextSlot := upkeep.nextSlot.trans same.nextSlot
  matched := upkeep.matched.trans same.matched
  next := upkeep.next.trans same.next
  queue := upkeep.queue.trans same.queue
  silent := upkeep.silent

end Upkeep

theorem sends_trimLoop (fuel : Nat) (self : Replica n) :
    System.sends (Replica.trimLoop fuel self).2 = [] := by
  induction fuel generalizing self with
  | zero => rfl
  | succ fuel ih =>
      unfold Replica.trimLoop
      split
      · rfl
      · split
        · exact ih _
        · rfl

theorem upkeep_trimLogPrefix (self : Replica n) : Upkeep self self.trimLogPrefix := by
  obtain ⟨log, round, after, -⟩ := Replica.trimLoop_fst self.log.entries.length self
  constructor
  case silent => exact sends_trimLoop _ self
  all_goals rw [Replica.trimLogPrefix, after]

theorem upkeep_trimTo (self : Replica n) (goal : Nat) :
    Upkeep self (Replica.trimLogPrefix { self with trimThrough := goal }) := by
  have upkeep := upkeep_trimLogPrefix { self with trimThrough := goal }
  exact ⟨upkeep.index, upkeep.role, upkeep.round, upkeep.nextSlot, upkeep.matched, upkeep.next,
    upkeep.queue, upkeep.silent⟩

theorem upkeep_applyNext (self : Replica n) : Upkeep self self.applyNext := by
  cases found : self.log.find? (self.lastApplied + 1) with
  | none =>
      simp only [Replica.applyNext, found]
      exact ⟨rfl, rfl, rfl, rfl, rfl, rfl, rfl, rfl⟩
  | some entry =>
      rw [Replica.applyNext_eq found]
      split
      · constructor
        case silent => cases (self.executing entry).responseCache entry.req.serial <;> rfl
        all_goals rfl
      · exact ⟨rfl, rfl, rfl, rfl, rfl, rfl, rfl, rfl⟩

theorem upkeep_applyLoop (count : Nat) (self : Replica n) :
    Upkeep self (Replica.applyLoop count self) := by
  induction count generalizing self with
  | zero => exact Upkeep.pure self
  | succ count ih => exact (upkeep_applyNext self).andThen (ih _)

theorem upkeep_applyCommittedEntries (self : Replica n) :
    Upkeep self self.applyCommittedEntries :=
  (upkeep_applyLoop _ self).andThen (upkeep_trimLogPrefix _)

theorem upkeep_updateCommitIndex (self : Replica n) : Upkeep self self.updateCommitIndex := by
  unfold Replica.updateCommitIndex
  split
  · exact Upkeep.pure self
  · split
    · exact Upkeep.pure self
    · exact ⟨rfl, rfl, rfl, rfl, rfl, rfl, rfl, rfl⟩

theorem upkeep_updateTrimWatermark (self : Replica n) :
    Upkeep self self.updateTrimWatermark := by
  unfold Replica.updateTrimWatermark
  split
  · exact Upkeep.pure self
  · dsimp only
    generalize List.foldl _ _ _ = low
    generalize (if Replica.trimRetention < min low self.commitIndex then
      min low self.commitIndex - Replica.trimRetention else 0) = goal
    split
    · exact upkeep_trimTo self goal
    · exact Upkeep.pure self

theorem upkeep_commitAndExecute (self : Replica n) :
    Upkeep self ((self.updateCommitIndex.andThen Replica.applyCommittedEntries).andThen
      Replica.updateTrimWatermark) :=
  ((upkeep_updateCommitIndex self).andThen (upkeep_applyCommittedEntries _)).andThen
    (upkeep_updateTrimWatermark _)

/-! ## A log that every replica has -/

theorem Replica.commitScan_of_last {self : Replica n} {count : Nat} (positive : 0 < count)
    (round : self.roundAt (self.commitIndex + count) = self.currentRound)
    (quorum : self.hasQuorum (self.replicated (self.commitIndex + count)) = true) :
    self.commitScan count = some (self.commitIndex + count) := by
  cases count with
  | zero => exact absurd positive (Nat.lt_irrefl 0)
  | succ count => simp only [commitScan, round, quorum, and_self, if_true]

theorem Replica.replicated_of_matched {self : Replica n} {idx : Nat}
    (matched : ∀ peer, idx ≤ self.matchIndex peer) : self.replicated idx = n := by
  have others : (Finset.univ.filter fun s => s ≠ self.index ∧ idx ≤ self.matchIndex s) =
      Finset.univ.erase self.index := by
    ext s
    simp [matched]
  have positive := self.index.pos
  rw [replicated, countP_finRange, others, Finset.card_erase_of_mem (Finset.mem_univ _),
    Finset.card_univ, Fintype.card_fin]
  omega

theorem le_foldl_min {matched : Fin n → Nat} {low : Nat} (bound : ∀ peer, low ≤ matched peer)
    (items : List (Fin n)) {start : Nat} (le : low ≤ start) :
    low ≤ items.foldl (fun least s => min least (matched s)) start := by
  induction items generalizing start with
  | nil => exact le
  | cons first rest ih => exact ih (le_min le (bound first))

/-- Everything is committed and executed, and no more of it is retained than has to be. -/
structure Replica.Done (replica : Replica n) : Prop where
  commit : replica.commitIndex = replica.lastLogIndex
  applied : replica.lastApplied = replica.lastLogIndex
  retained : replica.lastLogIndex ≤ replica.trimThrough + trimRetention

theorem applyLoop_indices (count : Nat) (self : Replica n) :
    (Replica.applyLoop count self).1.commitIndex = self.commitIndex ∧
      (Replica.applyLoop count self).1.lastApplied = self.lastApplied + count := by
  induction count generalizing self with
  | zero => exact ⟨rfl, rfl⟩
  | succ count ih =>
      obtain ⟨commitEq, appliedEq⟩ := self.applyNext_commitIndex
      obtain ⟨commitNext, appliedNext⟩ := ih self.applyNext.1
      exact ⟨commitNext.trans commitEq, appliedNext.trans (by omega)⟩

/-- Trimming leaves alone what has been committed and executed. -/
theorem trimLogPrefix_indices (self : Replica n) :
    self.trimLogPrefix.1.commitIndex = self.commitIndex ∧
      self.trimLogPrefix.1.lastApplied = self.lastApplied ∧
      self.trimLogPrefix.1.trimThrough = self.trimThrough := by
  obtain ⟨log, round, after, -⟩ := Replica.trimLoop_fst self.log.entries.length self
  rw [Replica.trimLogPrefix, after]
  exact ⟨rfl, rfl, rfl⟩

theorem updateTrimWatermark_done {self : Replica n} (leader : self.role = .leader)
    (matched : ∀ peer, self.lastLogIndex ≤ self.matchIndex peer)
    (commit : self.commitIndex = self.lastLogIndex)
    (applied : self.lastApplied = self.lastLogIndex) : self.updateTrimWatermark.1.Done := by
  unfold Replica.updateTrimWatermark
  rw [if_neg (not_not.mpr leader)]
  dsimp only
  have least := le_foldl_min matched (List.finRange n) (matched self.index)
  generalize List.foldl _ _ _ = low at least ⊢
  have target : self.lastLogIndex ≤ (if Replica.trimRetention < min low self.commitIndex then
      min low self.commitIndex - Replica.trimRetention else 0) + Replica.trimRetention := by
    split <;> omega
  generalize (if Replica.trimRetention < min low self.commitIndex then
    min low self.commitIndex - Replica.trimRetention else 0) = goal at target ⊢
  split
  · obtain ⟨commitEq, appliedEq, trimEq⟩ := trimLogPrefix_indices { self with trimThrough := goal }
    have upkeep := upkeep_trimTo self goal
    have last : (Replica.trimLogPrefix { self with trimThrough := goal }).1.lastLogIndex =
        self.lastLogIndex := by
      rw [Replica.lastLogIndex, upkeep.nextSlot, Replica.lastLogIndex]
    exact ⟨by rw [commitEq, last, commit], by rw [appliedEq, last, applied],
      by rw [trimEq, last]; exact target⟩
  · refine ⟨commit, applied, ?_⟩
    change self.lastLogIndex ≤ self.trimThrough + Replica.trimRetention
    omega

/-- A leader that knows of every replica that it has the whole log commits, executes and
discards what it can, once the last entry is of its round. -/
theorem commitAndExecute_done {self : Replica n} (leader : self.role = .leader)
    (bounded : Bounded self) (matched : ∀ peer, self.lastLogIndex ≤ self.matchIndex peer)
    (round : self.roundAt self.lastLogIndex = self.currentRound) :
    ((self.updateCommitIndex.andThen Replica.applyCommittedEntries).andThen
      Replica.updateTrimWatermark).1.Done := by
  have within : self.commitIndex ≤ self.lastLogIndex := Nat.le_sub_one_of_lt bounded.committed
  have committed : self.updateCommitIndex.1.commitIndex = self.lastLogIndex ∧
      self.updateCommitIndex.1.lastApplied = self.lastApplied := by
    unfold Replica.updateCommitIndex
    rw [if_neg (not_not.mpr leader)]
    by_cases reached : self.commitIndex = self.lastLogIndex
    · rw [reached, Nat.sub_self]
      exact ⟨reached, rfl⟩
    · have last : self.commitIndex + (self.lastLogIndex - self.commitIndex) =
          self.lastLogIndex := by omega
      have quorum : self.hasQuorum (self.replicated self.lastLogIndex) = true := by
        have positive := self.index.pos
        rw [Replica.replicated_of_matched matched]
        exact decide_eq_true (by unfold Replica.quorumSize; omega)
      have scan := @Replica.commitScan_of_last n self (self.lastLogIndex - self.commitIndex)
        (by omega) (by rw [last]; exact round) (by rw [last]; exact quorum)
      rw [scan, last]
      exact ⟨rfl, rfl⟩
  have upkeep := upkeep_updateCommitIndex self
  obtain ⟨commit, lastApplied⟩ := committed
  rw [Outcome.andThen, Outcome.andThen]
  set now := self.updateCommitIndex.1
  have applied : now.applyCommittedEntries.1.commitIndex = self.lastLogIndex ∧
      now.applyCommittedEntries.1.lastApplied = self.lastLogIndex := by
    obtain ⟨commitEq, appliedEq⟩ := applyLoop_indices (now.commitIndex - now.lastApplied) now
    obtain ⟨commitTrim, appliedTrim, -⟩ :=
      trimLogPrefix_indices (Replica.applyLoop (now.commitIndex - now.lastApplied) now).1
    have before := bounded.applied
    rw [Replica.applyCommittedEntries, Outcome.andThen, commitTrim, appliedTrim, commitEq,
      appliedEq]
    omega
  have executed := upkeep_applyCommittedEntries now
  have last : now.applyCommittedEntries.1.lastLogIndex = self.lastLogIndex := by
    rw [Replica.lastLogIndex, executed.nextSlot, upkeep.nextSlot, Replica.lastLogIndex]
  refine updateTrimWatermark_done ((executed.role.trans upkeep.role).trans leader) ?_
    (applied.1.trans last.symm) (applied.2.trans last.symm)
  rw [last, executed.matched, upkeep.matched]
  exact matched

/-! ## What the leader sends -/

namespace Replica

/-- The proposal that starts at slot `next`. -/
def proposal (self : Replica n) (next : Nat) : ProposeMessage n where
  round := self.currentRound
  leader := self.index
  prevLogIndex := next - 1
  prevLogRound := self.roundAt (next - 1)
  decideThrough := self.commitIndex
  trimThrough := self.trimThrough
  entries := collectBatch appendBatchSize next (self.log.lowerBound next)

theorem sendProposeTo_eq {self : Replica n} {peer : Fin n} (other : peer ≠ self.index)
    (leader : self.role = .leader) (retained : self.trimThrough < self.nextIndex peer) :
    self.sendProposeTo peer =
      (self, [.send peer (.propose (self.proposal (self.nextIndex peer)))]) := by
  have nextEq : max (self.nextIndex peer) (self.trimThrough + 1) = self.nextIndex peer :=
    max_eq_left retained
  unfold sendProposeTo
  rw [if_neg (not_or.mpr ⟨other, not_not.mpr leader⟩)]
  simp only [nextEq, Function.update_eq_self]
  rfl

/-- A leader whose next indices are all behind its trim point proposes to every
other replica. -/
theorem broadcastPropose_eq {self : Replica n} (leader : self.role = .leader)
    (retained : ∀ peer, self.trimThrough < self.nextIndex peer) :
    self.broadcastPropose =
      (self, (List.finRange n).flatMap fun peer => if peer = self.index then [] else
        [.send peer (.propose (self.proposal (self.nextIndex peer)))]) := by
  unfold broadcastPropose
  generalize List.finRange n = peers
  induction peers with
  | nil => rfl
  | cons peer rest ih =>
      simp only [Outcome.forEach, Outcome.andThen]
      by_cases own : peer = self.index
      · rw [if_neg (not_not.mpr own), ih, List.flatMap_cons, if_pos own]
      · rw [if_pos own, sendProposeTo_eq own leader (retained peer), ih, List.flatMap_cons,
          if_neg own]

/-! ## Handlers of the exchange -/

theorem becomeFollower_prefixMatches (self : Replica n) (round prev prevRound : Nat)
    (hint : Fin n) :
    (self.becomeFollower round hint).prefixMatches prev prevRound =
      self.prefixMatches prev prevRound := by
  unfold becomeFollower
  split <;> rfl

/-- What `become_follower` leaves alone. -/
theorem becomeFollower_frame (self : Replica n) (round : Nat) (hint : Fin n) :
    (self.becomeFollower round hint).index = self.index ∧
      (self.becomeFollower round hint).log = self.log ∧
      (self.becomeFollower round hint).nextSlot = self.nextSlot ∧
      (self.becomeFollower round hint).commitIndex = self.commitIndex ∧
      (self.becomeFollower round hint).trimThrough = self.trimThrough := by
  unfold becomeFollower
  split <;> exact ⟨rfl, rfl, rfl, rfl, rfl⟩

/-- The refusal of a proposal whose previous slot does not match. -/
theorem handlePropose_mismatch {self : Replica n} {msg : ProposeMessage n}
    (current : self.currentRound ≤ msg.round) (behind : self.trimThrough < msg.prevLogIndex)
    (mismatch : self.prefixMatches msg.prevLogIndex msg.prevLogRound = false) :
    self.handlePropose msg = (self.becomeFollower msg.round msg.leader,
      [.send msg.leader (.ack ⟨msg.round, self.index, false, self.lastLogIndex,
        min msg.prevLogIndex (self.lastLogIndex + 1)⟩)]) := by
  have roundEq := becomeFollower_currentRound msg.leader current
  obtain ⟨index, -, nextSlot, -, trim⟩ := self.becomeFollower_frame msg.round msg.leader
  unfold handlePropose
  rw [if_neg (Nat.not_lt.mpr current)]
  simp only [becomeFollower_prefixMatches, mismatch, if_true, roundEq, index, trim, if_pos behind,
    lastLogIndex, nextSlot]

theorem upkeep_followTrim (self : Replica n) (goal : Nat) :
    Upkeep self (if self.trimThrough < goal then
      trimLogPrefix { self with trimThrough := min goal self.lastApplied }
    else (self, [])) := by
  split
  · exact upkeep_trimTo self _
  · exact Upkeep.pure self

/-- An accepted batch is acknowledged. -/
theorem acceptBatch_upkeep (self : Replica n) (msg : ProposeMessage n) (matched : Nat) :
    (self.acceptBatch msg matched).1.role = self.role ∧
      (self.acceptBatch msg matched).1.currentRound = self.currentRound ∧
      (self.acceptBatch msg matched).1.nextSlot = self.nextSlot ∧
      System.sends (self.acceptBatch msg matched).2 =
        [⟨msg.leader, .ack ⟨self.currentRound, self.index, true, matched, matched + 1⟩⟩] := by
  have raises : Upkeep self (if self.commitIndex < msg.decideThrough then
      { self with commitIndex := min msg.decideThrough self.lastLogIndex } else self, []) := by
    split <;> exact ⟨rfl, rfl, rfl, rfl, rfl, rfl, rfl, rfl⟩
  unfold acceptBatch
  dsimp only
  generalize (if self.commitIndex < msg.decideThrough then
    { self with commitIndex := min msg.decideThrough self.lastLogIndex } else self) = raised
    at raises ⊢
  have upkeep : Upkeep self (raised.applyCommittedEntries.andThen fun executed =>
      if executed.trimThrough < msg.trimThrough then
        trimLogPrefix { executed with trimThrough := min msg.trimThrough executed.lastApplied }
      else (executed, [])) :=
    ((upkeep_applyCommittedEntries raised).since raises).andThen (upkeep_followTrim _ _)
  refine ⟨upkeep.role, upkeep.round, upkeep.nextSlot, ?_⟩
  rw [Outcome.andThen, System.sends_append, upkeep.silent, upkeep.round, upkeep.index]
  rfl

/-- The acknowledgement of a proposal that is accepted. -/
theorem handlePropose_match {self final : Replica n} {msg : ProposeMessage n} {matched : Nat}
    (current : self.currentRound ≤ msg.round)
    (matching : self.prefixMatches msg.prevLogIndex msg.prevLogRound = true)
    (appended : (self.becomeFollower msg.round msg.leader).appendEntries msg.prevLogIndex
      msg.entries = .done final matched) :
    (self.handlePropose msg).1.currentRound = msg.round ∧
      (self.handlePropose msg).1.nextSlot = final.nextSlot ∧
      System.sends (self.handlePropose msg).2 =
        [⟨msg.leader, .ack ⟨msg.round, self.index, true, matched, matched + 1⟩⟩] := by
  have roundEq := becomeFollower_currentRound msg.leader current
  obtain ⟨index, -⟩ := self.becomeFollower_frame msg.round msg.leader
  obtain ⟨log, next, replica⟩ := (self.becomeFollower msg.round msg.leader).appendEntries_replica
    msg.prevLogIndex msg.entries
  rw [appended] at replica
  have frame : final.currentRound = msg.round ∧ final.index = self.index := by
    change final = _ at replica
    rw [replica]
    exact ⟨roundEq, index⟩
  have handled : self.handlePropose msg = final.acceptBatch msg matched := by
    unfold handlePropose
    rw [if_neg (Nat.not_lt.mpr current)]
    simp only [becomeFollower_prefixMatches, matching, Bool.true_eq_false, if_false, appended]
  rw [handled, ← frame.1, ← frame.2]
  exact (final.acceptBatch_upkeep msg matched).2

/-- A leader that has been refused backs off. -/
theorem handleAck_refused {self : Replica n} {msg : AckMessage n} (leader : self.role = .leader)
    (current : msg.round = self.currentRound) (refused : msg.success = false)
    (other : msg.server ≠ self.index) (lower : msg.nextIndex < self.nextIndex msg.server)
    (retained : self.trimThrough < msg.nextIndex) :
    self.handleAck msg =
      ({ self with nextIndex := Function.update self.nextIndex msg.server msg.nextIndex },
        [.send msg.server (.propose (self.proposal msg.nextIndex))]) := by
  have nextEq : max msg.nextIndex (self.trimThrough + 1) = msg.nextIndex := max_eq_left retained
  unfold handleAck
  rw [if_neg (Nat.not_lt.mpr current.le), if_neg (by simp [leader, current]),
    if_neg (by simp [refused])]
  simp only [backOffPeer, if_neg (Nat.ne_zero_of_lt retained), if_neg (Nat.not_le.mpr lower),
    nextEq]
  have sent := @sendProposeTo_eq n
    { self with nextIndex := Function.update self.nextIndex msg.server msg.nextIndex }
    msg.server other leader (by simpa using retained)
  simp only [Function.update_self] at sent
  exact sent

/-- What a leader makes of an acknowledgement: it knows more of the peer, and
unless it has trimmed beyond that it sends what the peer still lacks. -/
structure Heard (before : Replica n) (msg : AckMessage n) (outcome : Outcome n) : Prop where
  role : outcome.1.role = before.role
  round : outcome.1.currentRound = before.currentRound
  nextSlot : outcome.1.nextSlot = before.nextSlot
  matched : outcome.1.matchIndex = Function.update before.matchIndex msg.server
    (max (before.matchIndex msg.server) msg.matchIndex)
  queue : outcome.1.pendingClientRequests = before.pendingClientRequests
  done : Bounded before → (∀ peer, before.lastLogIndex ≤ outcome.1.matchIndex peer) →
    before.roundAt before.lastLogIndex = before.currentRound → outcome.1.Done
  answers : outcome.1.trimThrough < max (before.nextIndex msg.server) msg.nextIndex →
    outcome.1.nextIndex msg.server = max (before.nextIndex msg.server) msg.nextIndex ∧
    System.sends outcome.2 = if outcome.1.nextIndex msg.server ≤ before.lastLogIndex then
      [⟨msg.server, .propose (outcome.1.proposal (outcome.1.nextIndex msg.server))⟩] else []

theorem handleAck_accepted {self : Replica n} {msg : AckMessage n} (leader : self.role = .leader)
    (current : msg.round = self.currentRound) (accepted : msg.success = true)
    (other : msg.server ≠ self.index) : Heard self msg (self.handleAck msg) := by
  have handled : self.handleAck msg = self.advancePeer msg := by
    unfold handleAck
    rw [if_neg (Nat.not_lt.mpr current.le), if_neg (by simp [leader, current]), if_pos accepted]
  rw [handled]
  unfold advancePeer
  dsimp only
  generalize toldEq : ({ self with
    matchIndex := Function.update self.matchIndex msg.server
      (max (self.matchIndex msg.server) msg.matchIndex)
    nextIndex := Function.update self.nextIndex msg.server
      (max (self.nextIndex msg.server) msg.nextIndex) } : Replica n) = told
  have upkeep := upkeep_commitAndExecute told
  have done : told.role = .leader → Bounded told →
      (∀ peer, told.lastLogIndex ≤ told.matchIndex peer) →
      told.roundAt told.lastLogIndex = told.currentRound → _ := commitAndExecute_done
  generalize (told.updateCommitIndex.andThen applyCommittedEntries).andThen
    updateTrimWatermark = executed at upkeep done ⊢
  obtain ⟨kept, events⟩ := executed
  obtain ⟨index, role, round, nextSlot, matched, next, queue, silent⟩ := upkeep
  subst toldEq
  dsimp only at index role round nextSlot matched next queue silent
  have settles : Bounded self → (∀ peer, self.lastLogIndex ≤ kept.matchIndex peer) →
      self.roundAt self.lastLogIndex = self.currentRound → kept.Done := by
    intro bounded all atEnd
    rw [matched] at all
    exact done leader { bounded with } all atEnd
  have nextEq : kept.nextIndex msg.server = max (self.nextIndex msg.server) msg.nextIndex := by
    rw [next, Function.update_self]
  have lastEq : kept.lastLogIndex = self.lastLogIndex := by
    rw [lastLogIndex, nextSlot, lastLogIndex]
  simp only [Outcome.andThen]
  by_cases more : kept.nextIndex msg.server ≤ kept.lastLogIndex
  · rw [if_pos more]
    obtain ⟨moved, after⟩ := kept.sendProposeTo_fst msg.server
    refine ⟨by rw [after, role], by rw [after, round], by rw [after, nextSlot],
      by rw [after, matched], by rw [after, queue], ?_, fun retained => ?_⟩
    · rw [after]
      exact fun bounded all atEnd => { settles bounded all atEnd with }
    · rw [after, ← nextEq] at retained
      rw [sendProposeTo_eq (index ▸ other) (role.trans leader) retained]
      refine ⟨nextEq, ?_⟩
      rw [System.sends_append, silent, if_pos (lastEq ▸ more)]
      rfl
  · rw [if_neg more]
    refine ⟨role, round, nextSlot, matched, queue, settles, fun _ => ⟨nextEq, ?_⟩⟩
    rw [System.sends_append, silent, if_neg (lastEq ▸ more)]
    rfl

end Replica

end DoomDraft.Paxos
