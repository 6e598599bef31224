import DoomDraft.Pancy.Database
import Mathlib.Data.Fin.VecNotation
import Mathlib.Data.Finset.Erase
import Mathlib.Data.Finset.Insert
import Mathlib.Data.List.FinRange
import Mathlib.Logic.Function.Basic

/-!
# Replica state and replica messages

One `pt_paxos_replica` with the four message kinds it exchanges.  The vectors
indexed by replica are functions on `Fin n`, the hash tables are partial
functions on serials, and the log stays an ordered map from slots to entries,
kept apart from `nextSlot`, `trimThrough` and `trimRound` exactly as in the
source.  Timeouts are left to the environment; only the batch deadline, which
the handlers read and write, is kept.
-/

namespace DoomDraft.Paxos

open Pancy

/-- `log_entry`. -/
structure LogEntry where
  slot : Nat
  round : Nat
  req : Request
  deriving DecidableEq

/-- `probe_message`: a candidate asks for a promise. -/
structure ProbeMessage (n : Nat) where
  round : Nat
  leader : Fin n
  lastLogIndex : Nat
  lastLogRound : Nat
  deriving DecidableEq

/-- `prepare_message`: the answer to a probe. -/
structure PrepareMessage (n : Nat) where
  round : Nat
  server : Fin n
  promised : Bool
  deriving DecidableEq

/-- `propose_message`: a leader replicates a batch and its watermarks. -/
structure ProposeMessage (n : Nat) where
  round : Nat
  leader : Fin n
  prevLogIndex : Nat
  prevLogRound : Nat
  decideThrough : Nat
  trimThrough : Nat
  entries : List LogEntry
  deriving DecidableEq

/-- `ack_message`: the answer to a proposal. -/
structure AckMessage (n : Nat) where
  round : Nat
  server : Fin n
  success : Bool
  matchIndex : Nat
  nextIndex : Nat
  deriving DecidableEq

/-- `paxos_message`, what replicas send each other. -/
inductive PaxosMessage (n : Nat) where
  | probe (msg : ProbeMessage n)
  | prepare (msg : PrepareMessage n)
  | propose (msg : ProposeMessage n)
  | ack (msg : AckMessage n)
  deriving DecidableEq

/-- The role of a replica in the current round. -/
inductive ReplicaRole where
  | follower
  | candidate
  | leader
  deriving DecidableEq

/-- The logical state of a `pt_paxos_replica` in a cluster of `n`. -/
structure Replica (n : Nat) where
  index : Fin n
  leaderIndex : Fin n
  db : PancyDb
  role : ReplicaRole
  currentRound : Nat
  promisedLeader : Option (Fin n)
  prepareOk : Fin n → Bool
  log : OrderedMap Nat LogEntry
  nextSlot : Nat
  commitIndex : Nat
  lastApplied : Nat
  trimThrough : Nat
  trimRound : Nat
  matchIndex : Fin n → Nat
  nextIndex : Fin n → Nat
  responseCache : Nat → Option Response
  pendingClients : Nat → Option Nat
  pendingClientRequests : List Request
  pendingClientSerials : Finset Nat
  clientBatchDeadline : Option Nat

/-- What a handler does besides updating its replica.  A send leaves for the
network and a response for a client.  The other three events are the trace of
the handler: `committed` lists the entries newly covered by
`update_commit_index`, `applied` the entry that `apply_committed_entries` found
at the slot it passed, and `trimmed` the entry that `trim_log_prefix` erased. -/
inductive Event (n : Nat) where
  | send (target : Fin n) (msg : PaxosMessage n)
  | respond (resp : Response)
  | committed (entries : List LogEntry)
  | applied (entry : LogEntry)
  | trimmed (entry : LogEntry)
  deriving DecidableEq

/-- A replica after a handler, with the events of the handler in order. -/
abbrev Outcome (n : Nat) := Replica n × List (Event n)

namespace Outcome

variable {n : Nat}

/-- Continue a handler, keeping the events so far. -/
def andThen (outcome : Outcome n) (next : Replica n → Outcome n) : Outcome n :=
  let following := next outcome.1
  (following.1, outcome.2 ++ following.2)

/-- Run a handler for each item of a list in order. -/
def forEach {α : Type} (handler : Replica n → α → Outcome n) :
    List α → Replica n → Outcome n
  | [], self => (self, [])
  | item :: rest, self => (handler self item).andThen (forEach handler rest)

theorem andThen_assoc (outcome : Outcome n) (first second : Replica n → Outcome n) :
    (outcome.andThen first).andThen second =
      outcome.andThen fun self => (first self).andThen second := by
  simp [andThen]

end Outcome

namespace Replica

variable {n : Nat}

/-- `append_batch_size_`. -/
def appendBatchSize : Nat := 16

/-- `trim_retention_`. -/
def trimRetention : Nat := 256

/-- `client_batch_window_`, in milliseconds. -/
def clientBatchWindow : Nat := 5

/-- The replica that the constructor builds. -/
def construct (index : Fin n) : Replica n where
  index := index
  leaderIndex := index
  db := PancyDb.empty
  role := .follower
  currentRound := 0
  promisedLeader := none
  prepareOk := fun _ => false
  log := OrderedMap.empty
  nextSlot := 1
  commitIndex := 0
  lastApplied := 0
  trimThrough := 0
  trimRound := 0
  matchIndex := fun _ => 0
  nextIndex := fun _ => 1
  responseCache := fun _ => none
  pendingClients := fun _ => none
  pendingClientRequests := []
  pendingClientSerials := ∅
  clientBatchDeadline := none

/-- `quorum_size`. -/
def quorumSize (_self : Replica n) : Nat :=
  n / 2 + 1

/-- `has_quorum`. -/
def hasQuorum (self : Replica n) (count : Nat) : Bool :=
  self.quorumSize ≤ count

/-- `last_log_index`. -/
def lastLogIndex (self : Replica n) : Nat :=
  self.nextSlot - 1

/-- `round_at`. -/
def roundAt (self : Replica n) (slot : Nat) : Nat :=
  if slot = 0 then 0
  else if slot = self.trimThrough then self.trimRound
  else match self.log.find? slot with
    | some entry => entry.round
    | none => 0

/-- `last_log_round`. -/
def lastLogRound (self : Replica n) : Nat :=
  self.roundAt self.lastLogIndex

/-- `leader_is_up_to_date`. -/
def leaderIsUpToDate (self : Replica n) (lastLogIndex lastLogRound : Nat) : Bool :=
  if lastLogRound ≠ self.lastLogRound then self.lastLogRound < lastLogRound
  else self.lastLogIndex ≤ lastLogIndex

/-- `prefix_matches`. -/
def prefixMatches (self : Replica n) (prevLogIndex prevLogRound : Nat) : Bool :=
  if prevLogIndex = 0 then self.trimThrough = 0
  else if prevLogIndex < self.trimThrough then false
  else if prevLogIndex = self.trimThrough then prevLogRound = self.trimRound
  else match self.log.find? prevLogIndex with
    | some entry => entry.round = prevLogRound
    | none => false

/-- `become_follower`. -/
def becomeFollower (self : Replica n) (round : Nat) (leaderHint : Fin n) : Replica n :=
  let self :=
    if self.currentRound < round then
      { self with currentRound := round, promisedLeader := none }
    else self
  { self with
    role := .follower
    leaderIndex := leaderHint
    prepareOk := fun _ => false
    pendingClients := fun _ => none
    pendingClientRequests := []
    pendingClientSerials := ∅
    clientBatchDeadline := none }

/-- `become_leader`. -/
def becomeLeader (self : Replica n) : Replica n :=
  { self with
    role := .leader
    leaderIndex := self.index
    promisedLeader := some self.index
    prepareOk := fun _ => false
    matchIndex := Function.update (fun _ => 0) self.index self.lastLogIndex
    nextIndex :=
      Function.update (fun _ => self.lastLogIndex + 1) self.index (self.lastLogIndex + 1) }

/-- `initialize`: the configured leader starts in office in round 0. -/
def initializeWith (self : Replica n) (initialLeader : Fin n) : Replica n :=
  let self :=
    { self with
      leaderIndex := initialLeader
      role := if self.index = initialLeader then .leader else .follower }
  if self.role = .leader then self.becomeLeader else self

end Replica

end DoomDraft.Paxos
