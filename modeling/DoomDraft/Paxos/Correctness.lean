import DoomDraft.Paxos.Replication

/-!
# The cluster refines log replication

Every action of the cluster is matched by steps of one node of the abstract
model, so the invariants of log replication carry over to every run.
-/

namespace DoomDraft.Paxos

open Pancy Consensus

variable {n : Nat} {careful : Prop}

/-- The cluster `s` implements the abstract state `a`. -/
structure Implements (careful : Prop) (a : Abstract n) (s : System n) : Prop where
  invariant : Invariant a
  settled : ∀ j, Settled j a s.history (s.replicas j)
  happened : ∀ j event, (j, event) ∈ s.history → SoundEvent careful a s.history event
  inFlight : ∀ packet ∈ s.network, SoundMessage a s.history packet.target packet.msg

/-- The action delivers a proposal that makes a follower commit slots which the
proposal does not vouch for. -/
def System.overreaches (s : System n) : Action n → Bool
  | .deliver position =>
      match s.network[position]? with
      | some ⟨target, .propose msg⟩ => (s.replicas target).overreaches msg
      | _ => false
  | _ => false

theorem System.mem_sends {packet : Packet n} {events : List (Event n)}
    (member : packet ∈ System.sends events) : Event.send packet.target packet.msg ∈ events := by
  obtain ⟨event, eventMem, sent⟩ := List.mem_filterMap.mp member
  cases event with
  | send target msg =>
      cases sent
      exact eventMem
  | respond resp => contradiction
  | committed entries => contradiction
  | applied entry => contradiction
  | trimmed entry => contradiction

/-- A handler with the specification of `Achieves` keeps the implementation
relation of the whole cluster. -/
theorem Implements.record {a : Abstract n} {s : System n} (implements : Implements careful a s)
    {j : Fin n} {network : List (Packet n)} {outcome : Outcome n}
    (remains : ∀ packet ∈ network, packet ∈ s.network)
    (achieves : Achieves careful a s.history j outcome (Settled j)) :
    ∃ b, Implements careful b (s.record j network outcome) ∧ Extends a b := by
  obtain ⟨b, steps, settled, sound⟩ := achieves
  obtain ⟨invariantB, extension⟩ := implements.invariant.steps steps
  have logs := implements.invariant.logs
  refine ⟨b, ⟨invariantB, ?_, ?_, ?_⟩, extension⟩
  · intro i
    simp only [System.record]
    by_cases own : i = j
    · subst own
      rw [Function.update_self]
      exact settled
    · rw [Function.update_of_ne own]
      exact ⟨(implements.settled i).1.frame own steps.frame extension logs _,
        (implements.settled i).2⟩
  · intro i event member
    simp only [System.record] at member
    rcases List.mem_append.mp member with old | new
    · exact (implements.happened i event old).mono extension logs
    · obtain ⟨_, eventMem, same⟩ := List.mem_map.mp new
      cases same
      exact sound event eventMem
  · intro packet member
    simp only [System.record] at member
    rcases List.mem_append.mp member with old | new
    · exact (implements.inFlight packet (remains packet old)).mono extension logs
    · exact sound _ (System.mem_sends new)

/-- `handle_replica_message` on a packet in flight. -/
theorem handleReplicaMessage_spec {a : Abstract n} {history : Trace n} {j : Fin n}
    {self : Replica n} (invariant : Invariant a) (settled : Settled j a history self)
    {msg : PaxosMessage n} (sound : SoundMessage a history j msg)
    (care : careful → ∀ proposal, msg = .propose proposal → self.overreaches proposal = false) :
    Achieves careful a history j (self.handleReplicaMessage msg) (Settled j) := by
  cases msg with
  | probe msg => exact handleProbe_spec invariant settled sound
  | prepare msg => exact handlePrepare_spec invariant settled sound
  | propose msg =>
      exact handlePropose_spec invariant settled sound fun carefully => care carefully msg rfl
  | ack msg => exact handleAck_spec invariant settled sound

/-- One action of the cluster. -/
theorem Implements.step {a : Abstract n} {s t : System n} (implements : Implements careful a s)
    {action : Action n} (care : careful → s.overreaches action = false)
    (stepped : s.step action = some t) : ∃ b, Implements careful b t ∧ Extends a b := by
  have invariant := implements.invariant
  have settled := implements.settled
  cases action with
  | deliver position =>
      simp only [System.step] at stepped
      split at stepped
      · contradiction
      · rename_i packet found
        obtain rfl := Option.some.inj stepped
        refine implements.record (fun other => List.mem_of_mem_eraseIdx) ?_
        refine handleReplicaMessage_spec invariant (settled packet.target)
          (implements.inFlight packet (List.mem_of_getElem? found)) ?_
        intro carefully proposal isProposal
        have safe := care carefully
        obtain ⟨target, msg⟩ := packet
        subst isProposal
        simpa only [System.overreaches, found] using safe
  | lose position =>
      simp only [System.step] at stepped
      split at stepped
      · obtain rfl := Option.some.inj stepped
        refine ⟨a, ⟨invariant, settled, implements.happened, ?_⟩, Extends.refl a⟩
        exact fun packet member => implements.inFlight packet (List.mem_of_mem_eraseIdx member)
      · contradiction
  | request i now req =>
      obtain rfl := Option.some.inj stepped
      exact implements.record (fun _ => id)
        (handleClientRequest_spec invariant (settled i) now req)
  | flush i now =>
      simp only [System.step] at stepped
      split at stepped
      · obtain rfl := Option.some.inj stepped
        exact implements.record (fun _ => id)
          (flushPendingClientRequests_spec invariant (settled i) now)
      · contradiction
  | heartbeat i =>
      simp only [System.step] at stepped
      split at stepped
      · rename_i enabled
        obtain rfl := Option.some.inj stepped
        refine implements.record (fun _ => id) ?_
        exact (broadcastPropose_spec invariant ⟨settled i, enabled.1⟩).imp
          fun _ _ _ presiding => presiding.1
      · contradiction
  | electionTimeout i =>
      simp only [System.step] at stepped
      split at stepped
      · obtain rfl := Option.some.inj stepped
        exact implements.record (fun _ => id) (startProbeRound_spec invariant (settled i))
      · contradiction

theorem settled_initial (initialLeader j : Fin n) :
    Settled j (State.initial initialLeader) []
      ((Replica.construct j).initializeWith initialLeader) := by
  have holds : HoldsLog (Replica.construct j) [] := by
    refine ⟨rfl, ?_, by simp [Replica.construct], le_rfl, le_rfl, le_rfl⟩
    intro slot
    cases slot <;> rfl
  have state : HoldsState [] j (Replica.construct j) [] := ⟨rfl, rfl, rfl⟩
  have decided : DecidedThrough (State.initial initialLeader) [] 0 0 :=
    fun slot positive le => by omega
  by_cases own : j = initialLeader
  · subst own
    refine ⟨?_, by simp [Replica.initializeWith, Replica.becomeLeader, Replica.construct]⟩
    simp only [Replica.initializeWith, Replica.becomeLeader, Replica.construct, if_true]
    refine ⟨rfl, rfl, { holds with }, { state with }, ?_, by simp, by simp, ?_, ?_, ?_, decided⟩
    · simp [State.initial, Consensus.record]
    · simp [State.initial]
    · intro _ v
      by_cases own : v = j <;> simp [State.initial, own, Replica.lastLogIndex]
    · intro _ v
      by_cases own : v = j <;> simp [own, Replica.lastLogIndex]
  · refine ⟨?_, by simp [Replica.initializeWith, Replica.construct, own]⟩
    simp only [Replica.initializeWith, Replica.construct, own, if_false, reduceCtorEq]
    refine ⟨rfl, rfl, { holds with }, { state with }, ?_, by simp, by simp, ?_, by simp, by simp,
      decided⟩
    · simp [State.initial, Consensus.record, own]
    · simpa [State.initial] using fun same => own same.symm

/-- The initial cluster implements the initial abstract state. -/
theorem implements_initial (initialLeader : Fin n) :
    Implements careful (State.initial initialLeader) (System.initial initialLeader) := by
  refine ⟨invariant_initial initialLeader, ?_, ?_, ?_⟩
  · exact settled_initial initialLeader
  · simp [System.initial]
  · simp [System.initial]

/-- A run whose steps are careful keeps the implementation relation and only
adds to the abstract record. -/
theorem Implements.perform {a : Abstract n} {s t : System n} (implements : Implements careful a s)
    {actions : List (Action n)}
    (permitted : Transition.Permitted System.step
      (fun state action => careful → state.overreaches action = false) s actions)
    (run : s.perform actions = some t) : ∃ b, Implements careful b t ∧ Extends a b := by
  refine Transition.perform_induction (P := fun state =>
    ∃ b, Implements careful b state ∧ Extends a b) ?_ ⟨a, implements, Extends.refl a⟩ permitted run
  rintro state action next ⟨b, implementsB, extendsB⟩ care stepped
  obtain ⟨c, implementsC, extendsC⟩ := implementsB.step care stepped
  exact ⟨c, implementsC, extendsB.trans extendsC⟩

end DoomDraft.Paxos
