import DoomDraft.Paxos.PendingClients

/-!
# Trimming across replicas

There is no snapshot to send, so an entry may be discarded only when no replica
will ever need it.  A leader trims what every replica has acknowledged in its
round, and a follower trims what a proposal tells it to.  What every replica has
acknowledged stays in the log of every replica, through later elections and
truncations, so trim points stay within all logs and agree with them.
-/

namespace DoomDraft.Paxos

open Pancy Consensus

variable {n : Nat}

/-! ## Trim points inside a handler -/

/-- The trim point of the replica has not gone past `bound`, or the replica is a
leader that knows it to be matched by every replica. -/
def Backed (bound : Nat) (self : Replica n) : Prop :=
  self.trimThrough ≤ bound ∨ self.role = .leader ∧ ∀ v, self.trimThrough ≤ self.matchIndex v

/-- The handler sends no proposal. -/
def Silent (events : List (Event n)) : Prop :=
  ∀ target msg, Event.send target (.propose msg) ∉ events

theorem Silent.andThen {outcome : Outcome n} {next : Replica n → Outcome n}
    (first : Silent outcome.2) (second : ∀ self, Silent (next self).2) :
    Silent (outcome.andThen next).2 :=
  fun target msg member =>
    (List.mem_append.mp member).elim (first target msg) (second outcome.1 target msg)

/-- What a leader's handler does to its trim point: it does not lower it, it
keeps it backed, and it proposes no trim point beyond it. -/
structure Trims (bound : Nat) (before : Replica n) (outcome : Outcome n) : Prop where
  raised : before.trimThrough ≤ outcome.1.trimThrough
  backed : Backed bound before → Backed bound outcome.1
  proposed : ∀ target msg, Event.send target (.propose msg) ∈ outcome.2 →
    msg.trimThrough ≤ outcome.1.trimThrough

namespace Trims

variable {bound : Nat} {before : Replica n} {outcome : Outcome n}

theorem pure (self : Replica n) : Trims bound self (self, []) :=
  ⟨le_rfl, id, by simp⟩

theorem andThen {next : Replica n → Outcome n} (first : Trims bound before outcome)
    (second : Trims bound outcome.1 (next outcome.1)) :
    Trims bound before (outcome.andThen next) where
  raised := first.raised.trans second.raised
  backed holds := second.backed (first.backed holds)
  proposed target msg member := by
    rcases List.mem_append.mp member with early | late
    · exact (first.proposed target msg early).trans second.raised
    · exact second.proposed target msg late

/-- A handler that runs on after a change that keeps the trim point backed. -/
theorem since {now : Replica n} (trims : Trims bound now outcome)
    (trim : now.trimThrough = before.trimThrough)
    (kept : Backed bound before → Backed bound now) : Trims bound before outcome :=
  ⟨trim.ge.trans trims.raised, fun holds => trims.backed (kept holds), trims.proposed⟩

/-- A handler that leaves the trim point, the role and the match indices alone
and proposes nothing. -/
theorem of_silent (trim : outcome.1.trimThrough = before.trimThrough)
    (role : outcome.1.role = before.role) (matched : outcome.1.matchIndex = before.matchIndex)
    (silent : Silent outcome.2) : Trims bound before outcome where
  raised := trim.ge
  backed holds := by rwa [Backed, trim, role, matched]
  proposed target msg member := absurd member (silent target msg)

end Trims

section Maintenance

variable {bound : Nat} {self : Replica n}

theorem silent_trimLoop (fuel : Nat) (self : Replica n) :
    Silent (Replica.trimLoop fuel self).2 := by
  intro target msg
  induction fuel generalizing self with
  | zero => simp [Replica.trimLoop]
  | succ fuel ih =>
      unfold Replica.trimLoop
      split
      · simp
      · split
        · simpa [Outcome.andThen] using ih _
        · simp

theorem trims_trimLogPrefix (self : Replica n) : Trims bound self self.trimLogPrefix := by
  obtain ⟨log, round, after, -⟩ := Replica.trimLoop_fst self.log.entries.length self
  refine Trims.of_silent ?_ ?_ ?_ (silent_trimLoop _ self)
  all_goals rw [Replica.trimLogPrefix, after]

theorem silent_applyNext (self : Replica n) : Silent self.applyNext.2 := by
  cases found : self.log.find? (self.lastApplied + 1) with
  | none => simp [Silent, Replica.applyNext, found]
  | some entry =>
      rw [Replica.applyNext_eq found]
      split <;> simp [Silent]

theorem silent_applyCommittedEntries (self : Replica n) :
    Silent self.applyCommittedEntries.2 := by
  have loop : ∀ count (current : Replica n), Silent (Replica.applyLoop count current).2 := by
    intro count
    induction count with
    | zero => simp [Silent, Replica.applyLoop]
    | succ count ih => exact fun current => (silent_applyNext current).andThen ih
  exact (loop _ self).andThen fun _ => silent_trimLoop _ _

theorem trims_applyNext (self : Replica n) : Trims bound self self.applyNext := by
  have silent := silent_applyNext self
  cases found : self.log.find? (self.lastApplied + 1) with
  | none =>
      simp only [Replica.applyNext, found] at silent ⊢
      exact Trims.of_silent rfl rfl rfl silent
  | some entry =>
      rw [Replica.applyNext_eq found] at silent ⊢
      split at silent
      · rename_i answered
        rw [if_pos answered]
        exact Trims.of_silent rfl rfl rfl silent
      · rename_i unanswered
        rw [if_neg unanswered]
        exact Trims.of_silent rfl rfl rfl silent

theorem trims_applyLoop (count : Nat) (self : Replica n) :
    Trims bound self (Replica.applyLoop count self) := by
  induction count generalizing self with
  | zero => exact Trims.pure self
  | succ count ih => exact (trims_applyNext self).andThen (ih _)

theorem trims_applyCommittedEntries (self : Replica n) :
    Trims bound self self.applyCommittedEntries :=
  (trims_applyLoop _ self).andThen (trims_trimLogPrefix _)

theorem trims_updateCommitIndex (self : Replica n) : Trims bound self self.updateCommitIndex := by
  unfold Replica.updateCommitIndex
  split
  · exact Trims.pure self
  · split
    · exact Trims.pure self
    · exact Trims.of_silent rfl rfl rfl (by simp [Silent])

theorem foldl_min_le (matched : Fin n → Nat) (items : List (Fin n)) (start : Nat) :
    items.foldl (fun low s => min low (matched s)) start ≤ start ∧
      ∀ v ∈ items, items.foldl (fun low s => min low (matched s)) start ≤ matched v := by
  induction items generalizing start with
  | nil => exact ⟨le_rfl, by simp⟩
  | cons first rest ih =>
      obtain ⟨le, all⟩ := ih (min start (matched first))
      refine ⟨le.trans (min_le_left _ _), ?_⟩
      rw [List.forall_mem_cons]
      exact ⟨le.trans (min_le_right _ _), all⟩

/-- `update_trim_watermark` goes as far as every match index at most. -/
theorem trims_updateTrimWatermark (self : Replica n) :
    Trims bound self self.updateTrimWatermark := by
  unfold Replica.updateTrimWatermark
  split
  · exact Trims.pure self
  · rename_i leader
    rw [not_not] at leader
    dsimp only
    have least := (foldl_min_le self.matchIndex (List.finRange n) (self.matchIndex self.index)).2
    generalize List.foldl _ _ _ = low at least ⊢
    have target : (if Replica.trimRetention < min low self.commitIndex then
        min low self.commitIndex - Replica.trimRetention else 0) ≤ low := by
      split <;> omega
    generalize (if Replica.trimRetention < min low self.commitIndex then
      min low self.commitIndex - Replica.trimRetention else 0) = goal at target ⊢
    split
    · rename_i raised
      have trims : Trims bound { self with trimThrough := goal } _ := trims_trimLogPrefix _
      refine ⟨raised.le.trans trims.raised, fun _ => trims.backed (Or.inr ⟨leader, ?_⟩),
        trims.proposed⟩
      exact fun v => target.trans (least v (List.mem_finRange v))
    · exact Trims.pure self

theorem trims_sendProposeTo (self : Replica n) (peer : Fin n) :
    Trims bound self (self.sendProposeTo peer) := by
  unfold Replica.sendProposeTo
  split
  · exact Trims.pure self
  · refine ⟨le_rfl, id, ?_⟩
    intro target msg member
    simp only [List.mem_singleton, Event.send.injEq, PaxosMessage.propose.injEq] at member
    rw [member.2]

theorem trims_broadcastPropose (self : Replica n) : Trims bound self self.broadcastPropose := by
  unfold Replica.broadcastPropose
  generalize List.finRange n = peers
  induction peers generalizing self with
  | nil => exact Trims.pure self
  | cons peer rest ih =>
      refine Trims.andThen ?_ (ih _)
      dsimp only
      split
      · exact trims_sendProposeTo self peer
      · exact Trims.pure self

theorem trims_commitAndExecute (self : Replica n) :
    Trims bound self ((self.updateCommitIndex.andThen Replica.applyCommittedEntries).andThen
      Replica.updateTrimWatermark) :=
  ((trims_updateCommitIndex self).andThen (trims_applyCommittedEntries _)).andThen
    (trims_updateTrimWatermark _)

end Maintenance

/-! ## Trim points after a handler -/

section Handlers

variable {bound : Nat} {self : Replica n}

/-- After the handler the trim point is backed, and no proposal goes beyond
it. -/
structure Justified (bound : Nat) (outcome : Outcome n) : Prop where
  backed : Backed bound outcome.1
  proposed : ∀ target msg, Event.send target (.propose msg) ∈ outcome.2 →
    msg.trimThrough ≤ outcome.1.trimThrough

theorem Trims.justified {outcome : Outcome n} (trims : Trims bound self outcome)
    (le : self.trimThrough ≤ bound) : Justified bound outcome :=
  ⟨trims.backed (Or.inl le), trims.proposed⟩

theorem Justified.of_silent {after : Replica n} {events : List (Event n)}
    (backed : Backed bound after) (silent : Silent events) : Justified bound (after, events) :=
  ⟨backed, fun target msg member => absurd member (silent target msg)⟩

theorem Replica.appendRequests_frame (count : Nat) (self : Replica n) :
    (self.appendRequests count).trimThrough = self.trimThrough ∧
      (self.appendRequests count).role = self.role ∧
      (self.appendRequests count).matchIndex = self.matchIndex := by
  induction count generalizing self with
  | zero => exact ⟨rfl, rfl, rfl⟩
  | succ count ih =>
      unfold Replica.appendRequests
      split
      · exact ⟨rfl, rfl, rfl⟩
      · exact ih _

theorem trims_proposeAndCommit (self : Replica n) :
    Trims bound self (((self.broadcastPropose.andThen Replica.updateCommitIndex).andThen
      Replica.applyCommittedEntries).andThen Replica.updateTrimWatermark) :=
  (((trims_broadcastPropose self).andThen (trims_updateCommitIndex _)).andThen
    (trims_applyCommittedEntries _)).andThen (trims_updateTrimWatermark _)

/-- A leader that has matched its own log keeps its trim point backed, since
its log reaches beyond its trim point. -/
theorem Backed.matchOwn (backed : Backed bound self) (bounded : Bounded self)
    (next : Fin n → Nat) :
    Backed bound
      { self with
        matchIndex := Function.update self.matchIndex self.index self.lastLogIndex
        nextIndex := next } := by
  refine backed.imp id ?_
  rintro ⟨leader, all⟩
  refine ⟨leader, fun v => ?_⟩
  by_cases same : v = self.index
  · subst same
    have trimmed := bounded.trimmed.trans bounded.applied
    have committed := bounded.committed
    simp only [Function.update_self, Replica.lastLogIndex]
    omega
  · simpa only [Function.update_of_ne same] using all v

theorem Tidy.trims_flushBatch (tidy : Tidy self) : Trims bound self self.flushBatch := by
  obtain ⟨trim, role, matched⟩ := self.appendRequests_frame
    (min self.pendingClientRequests.length Replica.appendBatchSize)
  have logged := tidy.appendRequests
    (min self.pendingClientRequests.length Replica.appendBatchSize)
  unfold Replica.flushBatch
  dsimp only
  generalize self.appendRequests
    (min self.pendingClientRequests.length Replica.appendBatchSize) = current
    at trim role matched logged ⊢
  refine (trims_proposeAndCommit _).since trim ?_
  intro backed
  refine Backed.matchOwn ?_ logged.toBounded _
  rwa [Backed, trim, role, matched]

theorem Tidy.trims_flushLoop {fuel : Nat} (tidy : Tidy self) :
    Trims bound self (Replica.flushLoop fuel self) := by
  induction fuel generalizing self with
  | zero => exact Trims.pure self
  | succ fuel ih =>
      unfold Replica.flushLoop
      split
      · exact tidy.trims_flushBatch.andThen (ih tidy.flushBatch)
      · exact Trims.pure self

theorem Tidy.trims_flushPendingClientRequests (tidy : Tidy self) (now : Nat) :
    Trims bound self (self.flushPendingClientRequests now) := by
  unfold Replica.flushPendingClientRequests
  split
  · exact Trims.of_silent rfl rfl rfl (by simp [Silent])
  · refine tidy.trims_flushLoop.andThen ?_
    split
    · exact Trims.of_silent rfl rfl rfl (by simp [Silent])
    · exact Trims.of_silent rfl rfl rfl (by simp [Silent])

theorem Tidy.trims_handleClientRequest (tidy : Tidy self) (now : Nat) (req : Request) :
    Trims bound self (self.handleClientRequest now req) := by
  unfold Replica.handleClientRequest
  split
  · exact Trims.of_silent rfl rfl rfl (by simp [Silent])
  · rename_i leader
    rw [not_not] at leader
    split
    · exact Trims.of_silent rfl rfl rfl (by simp [Silent])
    · split
      · exact Trims.pure self
      · rename_i fresh
        dsimp only
        split
        · exact ((tidy.enqueue leader fresh).trims_flushPendingClientRequests now).since rfl id
        · exact Trims.of_silent rfl rfl rfl (by simp [Silent])

/-- A match index that grows keeps the trim point backed. -/
theorem Backed.matchPeer (backed : Backed bound self) (peer : Fin n) (matched : Nat)
    (next : Fin n → Nat) :
    Backed bound
      { self with
        matchIndex := Function.update self.matchIndex peer (max (self.matchIndex peer) matched)
        nextIndex := next } := by
  refine backed.imp id ?_
  rintro ⟨leader, all⟩
  refine ⟨leader, fun v => ?_⟩
  by_cases same : v = peer
  · subst same
    simp only [Function.update_self]
    exact (all v).trans (le_max_left _ _)
  · simpa only [Function.update_of_ne same] using all v

theorem trims_advancePeer (self : Replica n) (msg : AckMessage n) :
    Trims bound self (self.advancePeer msg) := by
  unfold Replica.advancePeer
  refine ((trims_commitAndExecute _).andThen ?_).since rfl
    fun backed => backed.matchPeer msg.server msg.matchIndex _
  split
  · exact trims_sendProposeTo _ msg.server
  · exact Trims.pure _

theorem trims_backOffPeer (self : Replica n) (msg : AckMessage n) :
    Trims bound self (self.backOffPeer msg) := by
  unfold Replica.backOffPeer
  exact (trims_sendProposeTo _ msg.server).since rfl id

theorem Replica.becomeFollower_trimThrough (self : Replica n) (round : Nat) (hint : Fin n) :
    (self.becomeFollower round hint).trimThrough = self.trimThrough := by
  unfold Replica.becomeFollower
  dsimp only
  split <;> rfl

theorem justified_handleProbe (self : Replica n) (msg : ProbeMessage n) :
    Justified self.trimThrough (self.handleProbe msg) := by
  unfold Replica.handleProbe
  split
  · exact Justified.of_silent (Or.inl le_rfl) (by simp [Silent])
  · have current : (if self.currentRound < msg.round then
        self.becomeFollower msg.round self.leaderIndex else self).trimThrough =
          self.trimThrough := by
      split
      · exact self.becomeFollower_trimThrough _ _
      · rfl
    dsimp only
    generalize (if self.currentRound < msg.round then
      self.becomeFollower msg.round self.leaderIndex else self) = now at current ⊢
    split
    · exact Justified.of_silent (Or.inl current.le) (by simp [Silent])
    · exact Justified.of_silent (Or.inl current.le) (by simp [Silent])

theorem justified_handlePrepare (self : Replica n) (msg : PrepareMessage n) :
    Justified self.trimThrough (self.handlePrepare msg) := by
  unfold Replica.handlePrepare
  split
  · exact Justified.of_silent (Or.inl (self.becomeFollower_trimThrough _ _).le) (by simp [Silent])
  · split
    · exact Justified.of_silent (Or.inl le_rfl) (by simp [Silent])
    · dsimp only
      split
      · exact (trims_broadcastPropose _).justified le_rfl
      · exact Justified.of_silent (Or.inl le_rfl) (by simp [Silent])

theorem justified_handleAck (self : Replica n) (msg : AckMessage n) :
    Justified self.trimThrough (self.handleAck msg) := by
  unfold Replica.handleAck
  split
  · exact Justified.of_silent (Or.inl (self.becomeFollower_trimThrough _ _).le) (by simp [Silent])
  · split
    · exact Justified.of_silent (Or.inl le_rfl) (by simp [Silent])
    · split
      · exact (trims_advancePeer self msg).justified le_rfl
      · exact (trims_backOffPeer self msg).justified le_rfl

theorem justified_startProbeRound (self : Replica n) :
    Justified self.trimThrough self.startProbeRound := by
  unfold Replica.startProbeRound
  refine Trims.justified (Trims.andThen (Trims.of_silent rfl rfl rfl ?_) ?_) le_rfl
  · simp [Silent]
  · split
    · refine (trims_broadcastPropose _).since rfl fun backed => Or.inl ?_
      exact backed.resolve_right fun office => by simp at office
    · exact Trims.pure _

/-- A follower trims no further than a proposal allows. -/
theorem backed_acceptBatch {msg : ProposeMessage n} (backed : Backed bound self)
    (allowed : msg.trimThrough ≤ bound) (matchIndex : Nat) :
    Backed bound (self.acceptBatch msg matchIndex).1 := by
  refine Outcome.andThen_fst (Outcome.andThen_fst ?_ ?_) fun _ => id
  · refine (trims_applyCommittedEntries _).backed ?_
    split
    · exact backed
    · exact backed
  · intro executed backedNow
    split
    · exact (trims_trimLogPrefix _).backed (Or.inl ((min_le_left _ _).trans allowed))
    · exact backedNow

theorem silent_acceptBatch (self : Replica n) (msg : ProposeMessage n) (matchIndex : Nat) :
    Silent (self.acceptBatch msg matchIndex).2 := by
  refine ((silent_applyCommittedEntries _).andThen ?_).andThen (by simp [Silent])
  intro executed
  split
  · exact silent_trimLoop _ _
  · simp [Silent]

theorem justified_handlePropose {msg : ProposeMessage n} (le : self.trimThrough ≤ bound)
    (allowed : msg.trimThrough ≤ bound) : Justified bound (self.handlePropose msg) := by
  unfold Replica.handlePropose
  split
  · exact Justified.of_silent (Or.inl le) (by simp [Silent])
  · have follower : (self.becomeFollower msg.round msg.leader).trimThrough ≤ bound :=
      (self.becomeFollower_trimThrough _ _).trans_le le
    dsimp only
    split
    · exact Justified.of_silent (Or.inl follower) (by simp [Silent])
    · obtain ⟨log, next, appended⟩ := (self.becomeFollower msg.round
        msg.leader).appendEntries_replica msg.prevLogIndex msg.entries
      have within : ((self.becomeFollower msg.round msg.leader).appendEntries
          msg.prevLogIndex msg.entries).replica.trimThrough ≤ bound := by
        rw [appended]
        exact follower
      split
      · rename_i after slot result
        rw [result] at within
        exact Justified.of_silent (Or.inl within) (by simp [Silent])
      · rename_i after matched result
        rw [result] at within
        exact Justified.of_silent (backed_acceptBatch (Or.inl within) allowed matched)
          (silent_acceptBatch after msg matched)

/-- Where a trim point after a handler comes from: the trim point before, or a
proposal in flight. -/
theorem System.Handled.justified {s : System n} {i : Fin n} {outcome : Outcome n}
    (handled : s.Handled i outcome) (tidy : ∀ j, Tidy (s.replicas j)) (allowed : Nat → Prop)
    (own : allowed (s.replicas i).trimThrough)
    (proposed : ∀ packet ∈ s.network, ∀ msg, packet.msg = .propose msg →
      allowed msg.trimThrough) :
    ∃ bound, allowed bound ∧ Justified bound outcome := by
  cases handled with
  | message packet inFlight =>
      have sent := proposed packet inFlight
      cases msgEq : packet.msg with
      | probe msg => exact ⟨_, own, justified_handleProbe _ msg⟩
      | prepare msg => exact ⟨_, own, justified_handlePrepare _ msg⟩
      | propose msg =>
          refine ⟨max (s.replicas packet.target).trimThrough msg.trimThrough, ?_,
            justified_handlePropose (le_max_left _ _) (le_max_right _ _)⟩
          rcases max_choice (s.replicas packet.target).trimThrough msg.trimThrough with eq | eq
          · rw [eq]
            exact own
          · rw [eq]
            exact sent msg msgEq
      | ack msg => exact ⟨_, own, justified_handleAck _ msg⟩
  | request i now req =>
      exact ⟨_, own, ((tidy i).trims_handleClientRequest now req).justified le_rfl⟩
  | flush i now leader =>
      exact ⟨_, own, ((tidy i).trims_flushPendingClientRequests now).justified le_rfl⟩
  | heartbeat i leader => exact ⟨_, own, (trims_broadcastPropose _).justified le_rfl⟩
  | electionTimeout i notLeader => exact ⟨_, own, justified_startProbeRound _⟩

end Handlers

/-! ## Every run -/

/-- Every trim point, of a replica or in a proposal in flight, is within what
all replicas have acknowledged in some round. -/
structure Sheltered (a : Abstract n) (s : System n) : Prop where
  replicas : ∀ j, ∃ r, Shared a r (s.replicas j).trimThrough
  proposals : ∀ packet ∈ s.network, ∀ msg, packet.msg = .propose msg →
    ∃ r, Shared a r msg.trimThrough

theorem sheltered_initial (initialLeader : Fin n) :
    Sheltered (State.initial initialLeader) (System.initial initialLeader) := by
  refine ⟨?_, by simp [System.initial]⟩
  intro j
  refine ⟨0, ?_⟩
  have nothing : ((System.initial initialLeader).replicas j).trimThrough = 0 := by
    simp only [System.initial, Replica.initializeWith]
    split <;> rfl
  rw [nothing]
  exact fun v => Nat.zero_le _

/-- A backed trim point is within what all replicas have acknowledged. -/
theorem Refines.shared_of_backed {a : Abstract n} {history : Trace n} {j : Fin n}
    {self : Replica n} {bound : Nat} (refines : Refines a history j self)
    (backed : Backed bound self) (shared : ∃ r, Shared a r bound) :
    ∃ r, Shared a r self.trimThrough := by
  rcases backed with within | ⟨leader, all⟩
  · obtain ⟨r, sharedBound⟩ := shared
    exact ⟨r, sharedBound.of_le within⟩
  · exact ⟨self.currentRound, fun v => (all v).trans (refines.matched leader v)⟩

theorem Sheltered.step {a b : Abstract n} {s t : System n} {action : Action n}
    (sheltered : Sheltered a s) (tidy : ∀ j, Tidy (s.replicas j))
    (stepped : s.step action = some t) (extension : Extends a b)
    (implements : Implements False b t) : Sheltered b t := by
  have grown : ∀ {k}, (∃ r, Shared a r k) → ∃ r, Shared b r k :=
    fun ⟨r, shared⟩ => ⟨r, shared.mono extension⟩
  rcases System.step_cases stepped with
    ⟨i, network, outcome, handled, remains, rfl⟩ | ⟨network, remains, rfl⟩
  · obtain ⟨bound, shared, justified⟩ := handled.justified tidy
      (fun k => ∃ r, Shared a r k) (sheltered.replicas i) sheltered.proposals
    have own : ∃ r, Shared b r outcome.1.trimThrough := by
      have settled := (implements.settled i).1
      simp only [System.record, Function.update_self] at settled
      exact settled.shared_of_backed justified.backed (grown shared)
    refine ⟨?_, ?_⟩
    · intro j
      simp only [System.record]
      by_cases same : j = i
      · subst same
        rw [Function.update_self]
        exact own
      · rw [Function.update_of_ne same]
        exact grown (sheltered.replicas j)
    · intro packet member msg isProposal
      simp only [System.record] at member
      rcases List.mem_append.mp member with old | new
      · exact grown (sheltered.proposals packet (remains packet old) msg isProposal)
      · obtain ⟨r, sharedOwn⟩ := own
        have sent := System.mem_sends new
        rw [isProposal] at sent
        exact ⟨r, sharedOwn.of_le (justified.proposed _ msg sent)⟩
  · refine ⟨fun j => grown (sheltered.replicas j), ?_⟩
    exact fun packet member msg isProposal =>
      grown (sheltered.proposals packet (remains packet member) msg isProposal)

theorem exists_sheltered {initialLeader : Fin n} {actions : List (Action n)} {s : System n}
    (run : (System.initial initialLeader).perform actions = some s) :
    ∃ a, Implements False a s ∧ Sheltered a s := by
  obtain ⟨a, implements, -, sheltered⟩ := Transition.perform_invariant
    (P := fun state => ∃ a, Implements False a state ∧ (∀ j, Booked (state.replicas j)) ∧
      Sheltered a state)
    (by
      rintro state action next ⟨a, implements, booked, sheltered⟩ stepped
      obtain ⟨b, implementsB, extension⟩ := implements.step False.elim stepped
      refine ⟨b, implementsB, implements.booked_step booked stepped, ?_⟩
      exact sheltered.step (fun j => { (implements.settled j).bounded with toBooked := booked j })
        stepped extension implementsB)
    ⟨_, implements_initial initialLeader, booked_initial initialLeader,
      sheltered_initial initialLeader⟩
    run
  exact ⟨a, implements, sheltered⟩

/-- The log of every replica has what any replica has trimmed. -/
theorem Sheltered.entryAt_eq {a : Abstract n} {s : System n} (sheltered : Sheltered a s)
    (invariant : Invariant a) (i j : Fin n) :
    (s.replicas i).trimThrough ≤ (a.log j).length ∧
      ∀ slot ≤ (s.replicas i).trimThrough, entryAt (a.log j) slot = entryAt (a.log i) slot := by
  obtain ⟨r, shared⟩ := sheltered.replicas i
  obtain ⟨within, same⟩ := shared.take_eq invariant j i
  exact ⟨within, fun slot le => entryAt_eq_of_take_eq same le⟩

theorem Implements.roundAt_trimThrough {a : Abstract n} {s : System n}
    (implements : Implements False a s) (sheltered : Sheltered a s) {i j : Fin n}
    (le : (s.replicas j).trimThrough ≤ (s.replicas i).trimThrough)
    (positive : 0 < (s.replicas i).trimThrough) :
    (s.replicas j).roundAt (s.replicas i).trimThrough = (s.replicas i).trimRound := by
  obtain ⟨-, same⟩ := sheltered.entryAt_eq implements.invariant i j
  rw [(implements.settled j).1.log.roundAt le, (implements.settled i).1.log.trimRound positive,
    Consensus.roundAt, same _ le_rfl]
  rfl

/-- From the later of two trim points on one replica accepts the log of the other. -/
theorem Implements.prefixMatches_trimThrough {a : Abstract n} {s : System n}
    (implements : Implements False a s) (sheltered : Sheltered a s) (i j : Fin n) :
    (s.replicas j).prefixMatches (max (s.replicas i).trimThrough (s.replicas j).trimThrough)
      ((s.replicas i).roundAt (max (s.replicas i).trimThrough (s.replicas j).trimThrough)) =
        true := by
  have holdsI := (implements.settled i).1.log
  have holdsJ := (implements.settled j).1.log
  obtain ⟨within, same⟩ := sheltered.entryAt_eq implements.invariant i j
  obtain ⟨-, sameOwn⟩ := sheltered.entryAt_eq implements.invariant j i
  have trimmed := holdsJ.trimmed.trans (holdsJ.applied.trans holdsJ.committed)
  have agree : entryAt (a.log j) (max (s.replicas i).trimThrough (s.replicas j).trimThrough) =
      entryAt (a.log i) (max (s.replicas i).trimThrough (s.replicas j).trimThrough) := by
    rcases max_choice (s.replicas i).trimThrough (s.replicas j).trimThrough with eq | eq
    · rw [eq, same _ le_rfl]
    · rw [eq, sameOwn _ le_rfl]
  rw [holdsI.roundAt (le_max_left _ _), Consensus.roundAt, ← agree]
  exact holdsJ.prefixMatches (le_max_right _ _) (max_le within trimmed)

end DoomDraft.Paxos
