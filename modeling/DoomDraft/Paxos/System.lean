import DoomDraft.Foundation.Transition
import DoomDraft.Paxos.Handlers

/-!
# The cluster and its network

A configuration holds every replica, the packets in flight and the trace of
handler events.  Packets may be delivered in any order, at any time, or never;
`run` decides which handler a replica may start on its own, and the time at
which it does so is arbitrary.
-/

namespace DoomDraft.Paxos

open Pancy

/-- A packet in flight to a replica. -/
structure Packet (n : Nat) where
  target : Fin n
  msg : PaxosMessage n
  deriving DecidableEq

/-- The handler events of a run in order, each with the replica it happened at. -/
abbrev Trace (n : Nat) := List (Fin n × Event n)

/-- A cluster of `n` replicas with its network and its trace. -/
structure System (n : Nat) where
  replicas : Fin n → Replica n
  network : List (Packet n)
  history : Trace n

/-- What may happen next: a packet arrives or is lost, a client request
arrives, or one of the timers of `run` fires. -/
inductive Action (n : Nat) where
  | deliver (position : Nat)
  | lose (position : Nat)
  | request (i : Fin n) (now : Nat) (req : Request)
  | flush (i : Fin n) (now : Nat)
  | heartbeat (i : Fin n)
  | electionTimeout (i : Fin n)
  deriving DecidableEq

namespace System

variable {n : Nat}

/-- The packets that a handler sends. -/
def sends (events : List (Event n)) : List (Packet n) :=
  events.filterMap fun
    | .send target msg => some ⟨target, msg⟩
    | _ => none

/-- Record the outcome of a handler of replica `i` while `network` is still in
flight. -/
def record (s : System n) (i : Fin n) (network : List (Packet n)) (outcome : Outcome n) :
    System n where
  replicas := Function.update s.replicas i outcome.1
  network := network ++ sends outcome.2
  history := s.history ++ outcome.2.map fun event => (i, event)

/-- Whether `run` waits for the batch deadline rather than for a heartbeat. -/
def batching (self : Replica n) : Bool :=
  self.pendingClientRequests ≠ [] ∧ self.clientBatchDeadline ≠ none

/-- The configuration constructed and initialized by `pt_paxos_instance`. -/
def initial (initialLeader : Fin n) : System n where
  replicas := fun i => (Replica.construct i).initializeWith initialLeader
  network := []
  history := []

/-- One action of the cluster; `none` when the action is not enabled. -/
def step (s : System n) : Action n → Option (System n)
  | .deliver position =>
      match s.network[position]? with
      | none => none
      | some packet =>
          some (s.record packet.target (s.network.eraseIdx position)
            ((s.replicas packet.target).handleReplicaMessage packet.msg))
  | .lose position =>
      if position < s.network.length then
        some { s with network := s.network.eraseIdx position }
      else none
  | .request i now req =>
      some (s.record i s.network ((s.replicas i).handleClientRequest now req))
  | .flush i now =>
      if (s.replicas i).role = .leader ∧ batching (s.replicas i) then
        some (s.record i s.network ((s.replicas i).flushPendingClientRequests now))
      else none
  | .heartbeat i =>
      if (s.replicas i).role = .leader ∧ batching (s.replicas i) = false then
        some (s.record i s.network (s.replicas i).broadcastPropose)
      else none
  | .electionTimeout i =>
      if (s.replicas i).role ≠ .leader then
        some (s.record i s.network (s.replicas i).startProbeRound)
      else none

/-- Perform actions in order. -/
def perform (s : System n) (actions : List (Action n)) : Option (System n) :=
  Transition.perform step s actions

/-- A handler that a replica may run next, with its outcome. -/
inductive Handled (s : System n) : Fin n → Outcome n → Prop
  | message (packet : Packet n) (inFlight : packet ∈ s.network) :
      Handled s packet.target ((s.replicas packet.target).handleReplicaMessage packet.msg)
  | request (i : Fin n) (now : Nat) (req : Request) :
      Handled s i ((s.replicas i).handleClientRequest now req)
  | flush (i : Fin n) (now : Nat) (leader : (s.replicas i).role = .leader) :
      Handled s i ((s.replicas i).flushPendingClientRequests now)
  | heartbeat (i : Fin n) (leader : (s.replicas i).role = .leader) :
      Handled s i (s.replicas i).broadcastPropose
  | electionTimeout (i : Fin n) (notLeader : (s.replicas i).role ≠ .leader) :
      Handled s i (s.replicas i).startProbeRound

/-- An action runs one handler, or only loses a packet. -/
theorem step_cases {s t : System n} {action : Action n} (stepped : s.step action = some t) :
    (∃ i network outcome, Handled s i outcome ∧ (∀ packet ∈ network, packet ∈ s.network) ∧
      t = s.record i network outcome) ∨
    ∃ network, (∀ packet ∈ network, packet ∈ s.network) ∧ t = { s with network := network } := by
  cases action with
  | deliver position =>
      simp only [step] at stepped
      split at stepped
      · contradiction
      · rename_i packet found
        exact Or.inl ⟨_, _, _, .message packet (List.mem_of_getElem? found),
          fun _ => List.mem_of_mem_eraseIdx, (Option.some.inj stepped).symm⟩
  | lose position =>
      simp only [step] at stepped
      split at stepped
      · exact Or.inr ⟨_, fun _ => List.mem_of_mem_eraseIdx, (Option.some.inj stepped).symm⟩
      · contradiction
  | request i now req =>
      exact Or.inl ⟨i, _, _, .request i now req, fun _ => id, (Option.some.inj stepped).symm⟩
  | flush i now =>
      simp only [step] at stepped
      split at stepped
      · rename_i enabled
        exact Or.inl ⟨i, _, _, .flush i now enabled.1, fun _ => id, (Option.some.inj stepped).symm⟩
      · contradiction
  | heartbeat i =>
      simp only [step] at stepped
      split at stepped
      · rename_i enabled
        exact Or.inl ⟨i, _, _, .heartbeat i enabled.1, fun _ => id, (Option.some.inj stepped).symm⟩
      · contradiction
  | electionTimeout i =>
      simp only [step] at stepped
      split at stepped
      · rename_i enabled
        exact Or.inl ⟨i, _, _, .electionTimeout i enabled, fun _ => id,
          (Option.some.inj stepped).symm⟩
      · contradiction

/-- The trace grows at its end. -/
theorem history_isPrefix_of_step {s t : System n} {action : Action n}
    (stepped : s.step action = some t) : s.history <+: t.history := by
  rcases step_cases stepped with ⟨i, network, outcome, -, -, rfl⟩ | ⟨network, -, rfl⟩
  · exact List.prefix_append _ _
  · exact List.prefix_rfl

theorem history_isPrefix {s t : System n} {actions : List (Action n)}
    (run : s.perform actions = some t) : s.history <+: t.history :=
  Transition.isPrefix_of_perform System.history (fun _ _ _ => history_isPrefix_of_step) run

end System

/-! ## Observations on a trace -/

namespace Trace

variable {n : Nat}

/-- The entries that replica `j` has passed in `apply_committed_entries`. -/
def executed (history : Trace n) (j : Fin n) : List LogEntry :=
  history.filterMap fun
    | (i, .applied entry) => if i = j then some entry else none
    | _ => none

/-- The entries that replica `j` has erased in `trim_log_prefix`. -/
def discarded (history : Trace n) (j : Fin n) : List LogEntry :=
  history.filterMap fun
    | (i, .trimmed entry) => if i = j then some entry else none
    | _ => none

/-- Some leader has covered `entry` with its commit index in
`update_commit_index`. -/
def LeaderCommitted (history : Trace n) (entry : LogEntry) : Prop :=
  ∃ leader entries, (leader, Event.committed entries) ∈ history ∧ entry ∈ entries

end Trace

/-- Execute an entry unless its serial has a response already. -/
def execute (state : PancyDb × (Nat → Option Response)) (entry : LogEntry) :
    PancyDb × (Nat → Option Response) :=
  if (state.2 entry.req.serial).isSome then state
  else
    let (db, resp) := state.1.processReq entry.req
    (db, Function.update state.2 entry.req.serial (some resp))

/-- Execute entries in order on an empty database, each serial only at its
first entry; the result is the database and the response of every serial. -/
def replay (entries : List LogEntry) : PancyDb × (Nat → Option Response) :=
  entries.foldl execute (PancyDb.empty, fun _ => none)

end DoomDraft.Paxos
