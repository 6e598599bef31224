import DoomDraft.Paxos.PendingClients

/-!
# Where requests come from

Replicas invent no requests.  What every arriving request satisfies is true of all
requests in logs, queues, proposals and the trace.
-/

namespace DoomDraft.Paxos

open Pancy

variable {n : Nat} {P : Request → Prop}

/-- Every request that the replica keeps satisfies `P`. -/
structure Carries (P : Request → Prop) (replica : Replica n) : Prop where
  logged : ∀ slot entry, replica.log.find? slot = some entry → P entry.req
  queued : ∀ req ∈ replica.pendingClientRequests, P req

/-- Every request in a proposal satisfies `P`. -/
def PaxosMessage.Carries (P : Request → Prop) : PaxosMessage n → Prop
  | .propose msg => ∀ entry ∈ msg.entries, P entry.req
  | _ => True

/-- Every request in an event satisfies `P`. -/
def Event.Carries (P : Request → Prop) : Event n → Prop
  | .send _ msg => msg.Carries P
  | .respond _ => True
  | .committed entries => ∀ entry ∈ entries, P entry.req
  | .applied entry => P entry.req
  | .trimmed entry => P entry.req

/-- A handler ends with requests that satisfy `P`. -/
def Outcome.Carries (P : Request → Prop) (outcome : Outcome n) : Prop :=
  Paxos.Carries P outcome.1 ∧ ∀ event ∈ outcome.2, event.Carries P

namespace Outcome.Carries

theorem pure {self : Replica n} (carries : Paxos.Carries P self) :
    Outcome.Carries P ((self, []) : Outcome n) :=
  ⟨carries, fun _ member => absurd member List.not_mem_nil⟩

theorem emit {self : Replica n} (carries : Paxos.Carries P self) {event : Event n}
    (sound : event.Carries P) : Outcome.Carries P ((self, [event]) : Outcome n) :=
  ⟨carries, fun _ member => List.mem_singleton.mp member ▸ sound⟩

theorem andThen {outcome : Outcome n} {next : Replica n → Outcome n}
    (first : Outcome.Carries P outcome)
    (second : ∀ self, Paxos.Carries P self → Outcome.Carries P (next self)) :
    Outcome.Carries P (outcome.andThen next) := by
  obtain ⟨carries, events⟩ := second outcome.1 first.1
  refine ⟨carries, fun event member => ?_⟩
  rcases List.mem_append.mp member with early | late
  · exact first.2 event early
  · exact events event late

theorem forEach {α : Type} {handler : Replica n → α → Outcome n}
    (each : ∀ self item, Paxos.Carries P self → Outcome.Carries P (handler self item))
    (items : List α) {self : Replica n} (carries : Paxos.Carries P self) :
    Outcome.Carries P (Outcome.forEach handler items self) := by
  induction items generalizing self with
  | nil => exact pure carries
  | cons item rest ih => exact (each self item carries).andThen fun _ => ih

end Outcome.Carries

open Outcome.Carries

section Handlers

variable {self : Replica n}

/-- Other fields do not matter. -/
theorem Carries.frame {after : Replica n} (carries : Carries P self) (log : after.log = self.log)
    (queue : after.pendingClientRequests = self.pendingClientRequests) : Carries P after :=
  ⟨log ▸ carries.logged, queue ▸ carries.queued⟩

/-! ## Log maintenance -/

theorem Carries.trimLoop (carries : Carries P self) (fuel : Nat) :
    Outcome.Carries P (Replica.trimLoop fuel self) := by
  induction fuel generalizing self with
  | zero => exact pure carries
  | succ fuel ih =>
      unfold Replica.trimLoop
      split
      · exact pure carries
      · rename_i slot entry least
        split
        · refine andThen (emit ?_ ?_) fun _ later => ih later
          · refine { carries with logged := fun other kept found => ?_ }
            dsimp only at found
            rw [OrderedMap.find?_eraseFirst least] at found
            split at found
            · contradiction
            · exact carries.logged other kept found
          · exact carries.logged slot entry (OrderedMap.find?_of_first? least)
        · exact pure carries

theorem Carries.trimLogPrefix (carries : Carries P self) :
    Outcome.Carries P self.trimLogPrefix :=
  carries.trimLoop _

theorem Carries.updateCommitIndex (carries : Carries P self) :
    Outcome.Carries P self.updateCommitIndex := by
  unfold Replica.updateCommitIndex
  split
  · exact pure carries
  · split
    · exact pure carries
    · refine emit ?_ ?_
      · exact carries.frame rfl rfl
      · intro entry member
        obtain ⟨slot, -, -, found⟩ := Replica.mem_entriesBetween.mp member
        exact carries.logged slot entry found

theorem Carries.updateTrimWatermark (carries : Carries P self) :
    Outcome.Carries P self.updateTrimWatermark := by
  unfold Replica.updateTrimWatermark
  split
  · exact pure carries
  · dsimp only
    generalize (if Replica.trimRetention < _ then _ - Replica.trimRetention else 0) = target
    split
    · exact Carries.trimLogPrefix (carries.frame rfl rfl)
    · exact pure carries

theorem Carries.applyNext (carries : Carries P self) : Outcome.Carries P self.applyNext := by
  cases found : self.log.find? (self.lastApplied + 1) with
  | none =>
      simp only [Replica.applyNext, found]
      exact pure (carries.frame rfl rfl)
  | some entry =>
      have applied : (Event.applied entry : Event n).Carries P := carries.logged _ entry found
      rw [Replica.applyNext_eq found]
      split
      · refine ⟨carries.frame rfl rfl, fun event member => ?_⟩
        rcases List.mem_cons.mp member with rfl | answer
        · exact applied
        · obtain ⟨resp, -, rfl⟩ := List.mem_map.mp answer
          trivial
      · refine emit ?_ applied
        exact carries.frame rfl rfl

theorem Carries.applyCommittedEntries (carries : Carries P self) :
    Outcome.Carries P self.applyCommittedEntries := by
  have loop : ∀ count (current : Replica n), Carries P current →
      Outcome.Carries P (Replica.applyLoop count current) := by
    intro count
    induction count with
    | zero => exact fun _ => pure
    | succ count ih => exact fun _ now => now.applyNext.andThen ih
  exact (loop _ self carries).andThen fun _ => Carries.trimLogPrefix

/-! ## Proposing -/

theorem Carries.sendProposeTo (carries : Carries P self) (peer : Fin n) :
    Outcome.Carries P (self.sendProposeTo peer) := by
  unfold Replica.sendProposeTo
  split
  · exact pure carries
  · refine emit ?_ ?_
    · exact carries.frame rfl rfl
    · intro entry member
      obtain ⟨i, found⟩ := List.mem_iff_getElem?.mp member
      exact carries.logged _ entry (OrderedMap.mem_of_mem_lowerBound
        (Replica.collectBatch_getElem? found))

theorem Carries.broadcastPropose (carries : Carries P self) :
    Outcome.Carries P self.broadcastPropose := by
  refine forEach (fun current peer now => ?_) _ carries
  split
  · exact now.sendProposeTo peer
  · exact pure now

theorem Carries.appendRequests (carries : Carries P self) (count : Nat) :
    Carries P (self.appendRequests count) := by
  induction count generalizing self with
  | zero => exact carries
  | succ count ih =>
      unfold Replica.appendRequests
      split
      · exact carries
      · rename_i req rest queue
        have queued := carries.queued
        rw [queue, List.forall_mem_cons] at queued
        refine ih ⟨fun slot entry found => ?_, queued.2⟩
        dsimp only at found
        rw [OrderedMap.find?_emplace] at found
        split at found
        · cases present : self.log.find? self.nextSlot with
          | none =>
              rw [present] at found
              cases found
              exact queued.1
          | some own =>
              rw [present] at found
              cases found
              exact carries.logged _ own present
        · exact carries.logged slot entry found

theorem Carries.flushBatch (carries : Carries P self) : Outcome.Carries P self.flushBatch := by
  have logged := carries.appendRequests
    (min self.pendingClientRequests.length Replica.appendBatchSize)
  refine (((Carries.broadcastPropose ?_).andThen fun _ => Carries.updateCommitIndex).andThen
    fun _ => Carries.applyCommittedEntries).andThen fun _ => Carries.updateTrimWatermark
  exact logged.frame rfl rfl

theorem Carries.flushLoop (carries : Carries P self) (fuel : Nat) :
    Outcome.Carries P (Replica.flushLoop fuel self) := by
  induction fuel generalizing self with
  | zero => exact pure carries
  | succ fuel ih =>
      unfold Replica.flushLoop
      split
      · exact carries.flushBatch.andThen fun _ => ih
      · exact pure carries

theorem Carries.flushPendingClientRequests (carries : Carries P self) (now : Nat) :
    Outcome.Carries P (self.flushPendingClientRequests now) := by
  unfold Replica.flushPendingClientRequests
  split
  · exact pure (carries.frame rfl rfl)
  · refine (carries.flushLoop _).andThen fun current after => ?_
    split <;> exact pure (after.frame rfl rfl)

theorem Carries.handleClientRequest (carries : Carries P self) (now : Nat) {req : Request}
    (arrived : P req) : Outcome.Carries P (self.handleClientRequest now req) := by
  unfold Replica.handleClientRequest
  split
  · exact emit carries trivial
  · split
    · exact emit carries trivial
    · split
      · exact pure carries
      · have admitted : ∀ other ∈ self.pendingClientRequests ++ [req], P other :=
          List.forall_mem_append.mpr ⟨carries.queued, List.forall_mem_singleton.mpr arrived⟩
        dsimp only
        split
        · refine Carries.flushPendingClientRequests ?_ now
          exact { carries with queued := admitted }
        · exact pure { carries with queued := admitted }

/-! ## Elections -/

theorem Carries.becomeFollower (carries : Carries P self) (round : Nat) (hint : Fin n) :
    Carries P (self.becomeFollower round hint) := by
  unfold Replica.becomeFollower
  split <;> exact { carries with queued := fun _ member => absurd member List.not_mem_nil }

theorem Carries.startProbeRound (carries : Carries P self) :
    Outcome.Carries P self.startProbeRound := by
  unfold Replica.startProbeRound
  refine andThen ⟨(carries.frame rfl rfl), fun event member => ?_⟩ fun current now => ?_
  · obtain ⟨peer, -, rfl⟩ := List.mem_map.mp member
    trivial
  · split
    · refine Carries.broadcastPropose ?_
      exact now.frame rfl rfl
    · exact pure now

theorem Carries.handleProbe (carries : Carries P self) (msg : ProbeMessage n) :
    Outcome.Carries P (self.handleProbe msg) := by
  unfold Replica.handleProbe
  split
  · exact emit carries trivial
  · have current : Carries P (if self.currentRound < msg.round then
        self.becomeFollower msg.round self.leaderIndex else self) := by
      split
      · exact carries.becomeFollower _ _
      · exact carries
    dsimp only
    generalize (if self.currentRound < msg.round then
      self.becomeFollower msg.round self.leaderIndex else self) = now at current ⊢
    split
    · refine emit ?_ ?_
      · exact current.frame rfl rfl
      · trivial
    · refine emit current ?_
      trivial

theorem Carries.handlePrepare (carries : Carries P self) (msg : PrepareMessage n) :
    Outcome.Carries P (self.handlePrepare msg) := by
  unfold Replica.handlePrepare
  split
  · exact pure (carries.becomeFollower _ _)
  · split
    · exact pure carries
    · dsimp only
      split
      · refine Carries.broadcastPropose ?_
        exact carries.frame rfl rfl
      · exact pure (carries.frame rfl rfl)

/-! ## Replication -/

theorem Carries.dropConflict (carries : Carries P self) (entry : LogEntry) :
    Carries P (self.dropConflict entry) := by
  unfold Replica.dropConflict
  split
  · split
    · refine { carries with logged := fun slot kept found => ?_ }
      dsimp only at found
      rw [OrderedMap.find?_eraseFrom] at found
      split at found
      · exact carries.logged slot kept found
      · contradiction
    · exact carries
  · exact carries

theorem Carries.appendEntries (carries : Carries P self) (matchIndex : Nat)
    {entries : List LogEntry} (sound : ∀ entry ∈ entries, P entry.req) :
    Carries P (self.appendEntries matchIndex entries).replica := by
  induction entries generalizing self matchIndex with
  | nil => exact carries
  | cons entry rest ih =>
      rw [List.forall_mem_cons] at sound
      unfold Replica.appendEntries
      split
      · exact ih carries _ sound.2
      · split
        · exact carries
        · have dropped := carries.dropConflict entry
          refine ih ?_ _ sound.2
          split
          · exact dropped
          · rename_i absent
            refine { dropped with logged := fun slot kept found => ?_ }
            dsimp only at found
            rw [OrderedMap.find?_emplace] at found
            split at found
            · rw [OrderedMap.contains, Bool.not_eq_true, Option.isSome_eq_false_iff,
                Option.isNone_iff_eq_none] at absent
              rw [absent] at found
              cases found
              exact sound.1
            · exact dropped.logged slot kept found

theorem Carries.acceptBatch (carries : Carries P self) (msg : ProposeMessage n)
    (matchIndex : Nat) : Outcome.Carries P (self.acceptBatch msg matchIndex) := by
  refine ((Carries.applyCommittedEntries ?_).andThen fun current now => ?_).andThen
    fun _ after => ⟨after, fun event member => ?_⟩
  · split
    · exact carries.frame rfl rfl
    · exact carries
  · split
    · refine Carries.trimLogPrefix ?_
      exact now.frame rfl rfl
    · exact pure now
  · obtain rfl := List.mem_singleton.mp member
    trivial

theorem Carries.handlePropose (carries : Carries P self) {msg : ProposeMessage n}
    (sound : ∀ entry ∈ msg.entries, P entry.req) : Outcome.Carries P (self.handlePropose msg) := by
  unfold Replica.handlePropose
  split
  · exact emit carries trivial
  · have follower := carries.becomeFollower msg.round msg.leader
    have appended := follower.appendEntries msg.prevLogIndex sound
    dsimp only
    split
    · exact emit follower trivial
    · split
      · rename_i after slot result
        rw [result] at appended
        exact emit appended trivial
      · rename_i after matched result
        rw [result] at appended
        exact appended.acceptBatch msg matched

theorem Carries.advancePeer (carries : Carries P self) (msg : AckMessage n) :
    Outcome.Carries P (self.advancePeer msg) := by
  unfold Replica.advancePeer
  refine andThen (andThen (andThen (Carries.updateCommitIndex ?_) fun _ =>
    Carries.applyCommittedEntries) fun _ => Carries.updateTrimWatermark) fun current now => ?_
  · exact carries.frame rfl rfl
  · split
    · exact now.sendProposeTo _
    · exact pure now

theorem Carries.handleAck (carries : Carries P self) (msg : AckMessage n) :
    Outcome.Carries P (self.handleAck msg) := by
  unfold Replica.handleAck
  split
  · exact pure (carries.becomeFollower _ _)
  · split
    · exact pure carries
    · split
      · exact carries.advancePeer msg
      · refine Carries.sendProposeTo ?_ _
        exact carries.frame rfl rfl

theorem Carries.handleReplicaMessage (carries : Carries P self) {msg : PaxosMessage n}
    (sound : msg.Carries P) : Outcome.Carries P (self.handleReplicaMessage msg) := by
  cases msg with
  | probe msg => exact carries.handleProbe msg
  | prepare msg => exact carries.handlePrepare msg
  | propose msg => exact carries.handlePropose sound
  | ack msg => exact carries.handleAck msg

end Handlers

/-! ## Every run -/

/-- Every request anywhere in the cluster satisfies `P`. -/
structure System.Carries (P : Request → Prop) (s : System n) : Prop where
  replicas : ∀ i, Paxos.Carries P (s.replicas i)
  inFlight : ∀ packet ∈ s.network, packet.msg.Carries P
  happened : ∀ i event, (i, event) ∈ s.history → event.Carries P

/-- The request that an action brings to the cluster satisfies `P`. -/
def Action.Brings (P : Request → Prop) : Action n → Prop
  | .request _ _ req => P req
  | _ => True

theorem System.Carries.record {s : System n} (carries : s.Carries P) {i : Fin n}
    {network : List (Packet n)} {outcome : Outcome n}
    (remains : ∀ packet ∈ network, packet ∈ s.network) (handled : outcome.Carries P) :
    (s.record i network outcome).Carries P := by
  refine ⟨fun j => ?_, fun packet member => ?_, fun j event member => ?_⟩
  · simp only [System.record]
    by_cases same : j = i
    · subst same
      rw [Function.update_self]
      exact handled.1
    · rw [Function.update_of_ne same]
      exact carries.replicas j
  · rcases List.mem_append.mp member with old | new
    · exact carries.inFlight packet (remains packet old)
    · exact handled.2 _ (System.mem_sends new)
  · rcases List.mem_append.mp member with old | new
    · exact carries.happened j event old
    · obtain ⟨_, eventMem, same⟩ := List.mem_map.mp new
      cases same
      exact handled.2 event eventMem

theorem System.Carries.step {s t : System n} (carries : s.Carries P) {action : Action n}
    (brings : action.Brings P) (stepped : s.step action = some t) : t.Carries P := by
  cases action with
  | deliver position =>
      simp only [System.step] at stepped
      split at stepped
      · contradiction
      · rename_i packet found
        obtain rfl := Option.some.inj stepped
        exact carries.record (fun _ => List.mem_of_mem_eraseIdx)
          ((carries.replicas _).handleReplicaMessage
            (carries.inFlight packet (List.mem_of_getElem? found)))
  | lose position =>
      simp only [System.step] at stepped
      split at stepped
      · obtain rfl := Option.some.inj stepped
        exact { carries with
          inFlight := fun packet member =>
            carries.inFlight packet (List.mem_of_mem_eraseIdx member) }
      · contradiction
  | request i now req =>
      obtain rfl := Option.some.inj stepped
      exact carries.record (fun _ => id) ((carries.replicas i).handleClientRequest now brings)
  | flush i now =>
      simp only [System.step] at stepped
      split at stepped
      · obtain rfl := Option.some.inj stepped
        exact carries.record (fun _ => id) ((carries.replicas i).flushPendingClientRequests now)
      · contradiction
  | heartbeat i =>
      simp only [System.step] at stepped
      split at stepped
      · obtain rfl := Option.some.inj stepped
        exact carries.record (fun _ => id) (carries.replicas i).broadcastPropose
      · contradiction
  | electionTimeout i =>
      simp only [System.step] at stepped
      split at stepped
      · obtain rfl := Option.some.inj stepped
        exact carries.record (fun _ => id) (carries.replicas i).startProbeRound
      · contradiction

theorem System.carries_initial (P : Request → Prop) (initialLeader : Fin n) :
    (System.initial initialLeader).Carries P := by
  refine ⟨fun i => ?_, fun _ member => absurd member List.not_mem_nil,
    fun _ _ member => absurd member List.not_mem_nil⟩
  simp only [System.initial, Replica.initializeWith]
  have empty : Paxos.Carries P (Replica.construct i) :=
    ⟨fun slot entry found => by simp [Replica.construct] at found,
      fun _ member => absurd member List.not_mem_nil⟩
  split <;> exact empty.frame rfl rfl

/-- What every arriving request satisfies holds of every request in the cluster. -/
theorem System.Carries.perform {initialLeader : Fin n} {actions : List (Action n)} {s : System n}
    (run : (System.initial initialLeader).perform actions = some s)
    (brings : ∀ action ∈ actions, action.Brings P) : s.Carries P := by
  have everyStep : Transition.Permitted System.step (fun _ _ => True)
      (System.initial initialLeader) actions :=
    Transition.permitted_of_forall (fun _ _ => trivial) _ actions
  refine Transition.perform_induction ?_ (System.carries_initial P initialLeader)
    (everyStep.and_forall brings) run
  exact fun _ _ _ carries brought stepped => carries.step brought.2 stepped

end DoomDraft.Paxos
