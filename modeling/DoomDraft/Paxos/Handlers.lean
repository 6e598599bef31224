import DoomDraft.Paxos.Replica

/-!
# Replica handlers

The coroutines of `pt_paxos_replica` as state transformers.  A replica runs one
handler at a time and a handler reads nothing but its replica and its argument,
so a handler is a function from the replica to the replica after it and the
list of its events.
-/

namespace DoomDraft.Paxos.Replica

open Pancy Outcome

variable {n : Nat}

/-! ## Log maintenance -/

/-- The loop of `trim_log_prefix`; `fuel` bounds the number of entries. -/
def trimLoop : Nat → Replica n → Outcome n
  | 0, self => (self, [])
  | fuel + 1, self =>
      match self.log.first? with
      | none => (self, [])
      | some (slot, entry) =>
          if slot ≤ self.trimThrough then
            andThen ({ self with trimRound := entry.round, log := self.log.eraseFirst },
              [.trimmed entry]) (trimLoop fuel)
          else (self, [])

/-- `trim_log_prefix`. -/
def trimLogPrefix (self : Replica n) : Outcome n :=
  trimLoop self.log.entries.length self

/-- The number of replicas known to hold slot `idx`, the leader included. -/
def replicated (self : Replica n) (idx : Nat) : Nat :=
  1 + (List.finRange n).countP fun s => s ≠ self.index ∧ idx ≤ self.matchIndex s

/-- The scan of `update_commit_index` from `commitIndex + count` down. -/
def commitScan (self : Replica n) : Nat → Option Nat
  | 0 => none
  | count + 1 =>
      let idx := self.commitIndex + (count + 1)
      if self.roundAt idx = self.currentRound ∧ self.hasQuorum (self.replicated idx) then some idx
      else commitScan self count

/-- The retained entries at the slots above `low` up to `high`. -/
def entriesBetween (self : Replica n) (low high : Nat) : List LogEntry :=
  (self.log.entries.filter fun entry => low < entry.1 ∧ entry.1 ≤ high).map Prod.snd

/-- `update_commit_index`. -/
def updateCommitIndex (self : Replica n) : Outcome n :=
  if self.role ≠ .leader then (self, [])
  else match self.commitScan (self.lastLogIndex - self.commitIndex) with
    | none => (self, [])
    | some idx =>
        ({ self with commitIndex := idx }, [.committed (self.entriesBetween self.commitIndex idx)])

/-- `update_trim_watermark`. -/
def updateTrimWatermark (self : Replica n) : Outcome n :=
  if self.role ≠ .leader then (self, [])
  else
    let minMatch := (List.finRange n).foldl (fun low s => min low (self.matchIndex s))
      (self.matchIndex self.index)
    let minMatch := min minMatch self.commitIndex
    let targetTrim := if trimRetention < minMatch then minMatch - trimRetention else 0
    if self.trimThrough < targetTrim then
      trimLogPrefix { self with trimThrough := targetTrim }
    else (self, [])

/-- One turn of the loop of `apply_committed_entries`. -/
def applyNext (self : Replica n) : Outcome n :=
  let slot := self.lastApplied + 1
  let self := { self with lastApplied := slot }
  match self.log.find? slot with
  | none => (self, [])
  | some entry =>
      let serial := entry.req.serial
      let self :=
        if (self.responseCache serial).isSome then self
        else
          let (db, resp) := self.db.processReq entry.req
          { self with
            db := db
            responseCache := Function.update self.responseCache serial (some resp) }
      if self.role = .leader ∧ self.pendingClients serial = some slot then
        ({ self with
            pendingClients := Function.update self.pendingClients serial none
            pendingClientSerials := self.pendingClientSerials.erase serial },
          .applied entry :: (self.responseCache serial).toList.map .respond)
      else (self, [.applied entry])

/-- The loop of `apply_committed_entries`, run `count` times. -/
def applyLoop : Nat → Replica n → Outcome n
  | 0, self => (self, [])
  | count + 1, self => self.applyNext.andThen (applyLoop count)

/-- `apply_committed_entries`. -/
def applyCommittedEntries (self : Replica n) : Outcome n :=
  (applyLoop (self.commitIndex - self.lastApplied) self).andThen trimLogPrefix

/-! ## Proposing -/

/-- The batch loop of `send_propose_to`: consecutive entries from `next` on, at
most `room` of them. -/
def collectBatch : Nat → Nat → List (Nat × LogEntry) → List LogEntry
  | 0, _, _ => []
  | _, _, [] => []
  | room + 1, next, (slot, entry) :: rest =>
      if slot = next then entry :: collectBatch room (next + 1) rest else []

/-- `send_propose_to`. -/
def sendProposeTo (self : Replica n) (peer : Fin n) : Outcome n :=
  if peer = self.index ∨ self.role ≠ .leader then (self, [])
  else
    let next := max (self.nextIndex peer) (self.trimThrough + 1)
    let self := { self with nextIndex := Function.update self.nextIndex peer next }
    let prev := next - 1
    (self, [.send peer (.propose
      { round := self.currentRound
        leader := self.index
        prevLogIndex := prev
        prevLogRound := self.roundAt prev
        decideThrough := self.commitIndex
        trimThrough := self.trimThrough
        entries := collectBatch appendBatchSize next (self.log.lowerBound next) })])

/-- `broadcast_propose`. -/
def broadcastPropose (self : Replica n) : Outcome n :=
  forEach (fun self s => if s ≠ self.index then self.sendProposeTo s else (self, []))
    (List.finRange n) self

/-- The inner loop of `flush_pending_client_requests`: log `count` queued
requests. -/
def appendRequests : Nat → Replica n → Replica n
  | 0, self => self
  | count + 1, self =>
      match self.pendingClientRequests with
      | [] => self
      | req :: rest =>
          appendRequests count
            { self with
              pendingClientRequests := rest
              nextSlot := self.nextSlot + 1
              log := self.log.emplace self.nextSlot ⟨self.nextSlot, self.currentRound, req⟩
              pendingClients :=
                if (self.pendingClients req.serial).isSome then self.pendingClients
                else Function.update self.pendingClients req.serial (some self.nextSlot) }

/-- One turn of the outer loop of `flush_pending_client_requests`. -/
def flushBatch (self : Replica n) : Outcome n :=
  let batch := min self.pendingClientRequests.length appendBatchSize
  let self := self.appendRequests batch
  let self :=
    { self with
      matchIndex := Function.update self.matchIndex self.index self.lastLogIndex
      nextIndex := Function.update self.nextIndex self.index (self.lastLogIndex + 1) }
  (((self.broadcastPropose.andThen updateCommitIndex).andThen
    applyCommittedEntries).andThen updateTrimWatermark)

/-- The outer loop of `flush_pending_client_requests`.  Each turn logs at least
one request, so the length of the queue bounds the number of turns. -/
def flushLoop : Nat → Replica n → Outcome n
  | 0, self => (self, [])
  | fuel + 1, self =>
      if self.role = .leader ∧ self.pendingClientRequests ≠ [] then
        self.flushBatch.andThen (flushLoop fuel)
      else (self, [])

/-- `flush_pending_client_requests` at time `now`. -/
def flushPendingClientRequests (now : Nat) (self : Replica n) : Outcome n :=
  if self.role ≠ .leader ∨ self.pendingClientRequests = [] then
    ({ self with clientBatchDeadline := none }, [])
  else
    (flushLoop self.pendingClientRequests.length self).andThen fun self =>
      if self.pendingClientRequests = [] then ({ self with clientBatchDeadline := none }, [])
      else ({ self with clientBatchDeadline := some (now + clientBatchWindow) }, [])

/-! ## Elections -/

/-- `start_probe_round`. -/
def startProbeRound (self : Replica n) : Outcome n :=
  let self :=
    { self with
      role := .candidate
      currentRound := self.currentRound + 1
      leaderIndex := self.index
      promisedLeader := some self.index
      prepareOk := Function.update (fun _ => false) self.index true }
  let msg : ProbeMessage n :=
    { round := self.currentRound
      leader := self.index
      lastLogIndex := self.lastLogIndex
      lastLogRound := self.lastLogRound }
  let probes :=
    ((List.finRange n).filter fun s => s ≠ self.index).map fun s => Event.send s (.probe msg)
  andThen (self, probes) fun self =>
    if self.hasQuorum 1 then self.becomeLeader.broadcastPropose else (self, [])

/-- `handle_probe`. -/
def handleProbe (self : Replica n) (msg : ProbeMessage n) : Outcome n :=
  if msg.round < self.currentRound then
    (self, [.send msg.leader (.prepare ⟨self.currentRound, self.index, false⟩)])
  else
    let self :=
      if self.currentRound < msg.round then self.becomeFollower msg.round self.leaderIndex
      else self
    if (self.promisedLeader = none ∨ self.promisedLeader = some msg.leader) ∧
        self.leaderIsUpToDate msg.lastLogIndex msg.lastLogRound then
      ({ self with promisedLeader := some msg.leader, leaderIndex := msg.leader },
        [.send msg.leader (.prepare ⟨self.currentRound, self.index, true⟩)])
    else
      (self, [.send msg.leader (.prepare ⟨self.currentRound, self.index, false⟩)])

/-- `handle_prepare`. -/
def handlePrepare (self : Replica n) (msg : PrepareMessage n) : Outcome n :=
  if self.currentRound < msg.round then
    (self.becomeFollower msg.round self.leaderIndex, [])
  else if self.role ≠ .candidate ∨ msg.round ≠ self.currentRound ∨
      msg.promised = false ∨ self.prepareOk msg.server = true then
    (self, [])
  else
    let self := { self with prepareOk := Function.update self.prepareOk msg.server true }
    if self.hasQuorum ((List.finRange n).countP self.prepareOk) then
      self.becomeLeader.broadcastPropose
    else (self, [])

/-! ## Replication -/

/-- How the entry loop of `handle_propose` ends: with every entry in the log,
or with a committed slot that it refuses to overwrite. -/
inductive AppendResult (n : Nat) where
  | done (self : Replica n) (matchIndex : Nat)
  | refused (self : Replica n) (slot : Nat)

/-- The part of the loop body that makes room for a conflicting entry. -/
def dropConflict (self : Replica n) (entry : LogEntry) : Replica n :=
  match self.log.find? entry.slot with
  | some own =>
      if own.round ≠ entry.round then
        { self with log := self.log.eraseFrom entry.slot, nextSlot := entry.slot }
      else self
  | none => self

/-- Whether the loop body refuses `entry`. -/
def refuses (self : Replica n) (entry : LogEntry) : Bool :=
  match self.log.find? entry.slot with
  | some own => own.round ≠ entry.round ∧ entry.slot ≤ self.commitIndex
  | none => false

/-- The entry loop of `handle_propose`. -/
def appendEntries (self : Replica n) (matchIndex : Nat) : List LogEntry → AppendResult n
  | [] => .done self matchIndex
  | entry :: rest =>
      if entry.slot ≤ self.trimThrough then appendEntries self entry.slot rest
      else if self.refuses entry then .refused self entry.slot
      else
        let self := self.dropConflict entry
        let self :=
          if self.log.contains entry.slot then self
          else
            { self with
              log := self.log.emplace entry.slot entry
              nextSlot := max self.nextSlot (entry.slot + 1) }
        appendEntries self entry.slot rest

/-- The end of `handle_propose`, after every entry is in the log. -/
def acceptBatch (self : Replica n) (msg : ProposeMessage n) (matchIndex : Nat) : Outcome n :=
  let self :=
    if self.commitIndex < msg.decideThrough then
      { self with commitIndex := min msg.decideThrough self.lastLogIndex }
    else self
  (self.applyCommittedEntries.andThen fun self =>
    if self.trimThrough < msg.trimThrough then
      trimLogPrefix { self with trimThrough := min msg.trimThrough self.lastApplied }
    else (self, [])).andThen fun self =>
  (self, [.send msg.leader (.ack ⟨self.currentRound, self.index, true, matchIndex,
    matchIndex + 1⟩)])

/-- `handle_propose`. -/
def handlePropose (self : Replica n) (msg : ProposeMessage n) : Outcome n :=
  if msg.round < self.currentRound then
    (self, [.send msg.leader (.ack ⟨self.currentRound, self.index, false, self.lastLogIndex,
      self.lastLogIndex + 1⟩)])
  else
    let self := self.becomeFollower msg.round msg.leader
    if self.prefixMatches msg.prevLogIndex msg.prevLogRound = false then
      let nextIndex :=
        if self.trimThrough < msg.prevLogIndex then
          min msg.prevLogIndex (self.lastLogIndex + 1)
        else self.trimThrough + 1
      (self, [.send msg.leader (.ack ⟨self.currentRound, self.index, false, self.lastLogIndex,
        nextIndex⟩)])
    else match self.appendEntries msg.prevLogIndex msg.entries with
      | .refused self slot =>
          (self, [.send msg.leader (.ack ⟨self.currentRound, self.index, false,
            self.lastLogIndex, slot⟩)])
      | .done self matchIndex => self.acceptBatch msg matchIndex

/-- The successful branch of `handle_ack`. -/
def advancePeer (self : Replica n) (msg : AckMessage n) : Outcome n :=
  let self :=
    { self with
      matchIndex := Function.update self.matchIndex msg.server
        (max (self.matchIndex msg.server) msg.matchIndex)
      nextIndex := Function.update self.nextIndex msg.server
        (max (self.nextIndex msg.server) msg.nextIndex) }
  ((self.updateCommitIndex.andThen applyCommittedEntries).andThen
    updateTrimWatermark).andThen fun self =>
      if self.nextIndex msg.server ≤ self.lastLogIndex then self.sendProposeTo msg.server
      else (self, [])

/-- The retry branch of `handle_ack`. -/
def backOffPeer (self : Replica n) (msg : AckMessage n) : Outcome n :=
  let fallback := if msg.nextIndex = 0 then 1 else msg.nextIndex
  let fallback :=
    if self.nextIndex msg.server ≤ fallback then
      if 1 < self.nextIndex msg.server then self.nextIndex msg.server - 1 else 1
    else fallback
  sendProposeTo
    { self with
      nextIndex := Function.update self.nextIndex msg.server
        (max fallback (self.trimThrough + 1)) }
    msg.server

/-- `handle_ack`. -/
def handleAck (self : Replica n) (msg : AckMessage n) : Outcome n :=
  if self.currentRound < msg.round then
    (self.becomeFollower msg.round self.leaderIndex, [])
  else if self.role ≠ .leader ∨ msg.round ≠ self.currentRound then (self, [])
  else if msg.success then self.advancePeer msg
  else self.backOffPeer msg

/-- `handle_replica_message`. -/
def handleReplicaMessage (self : Replica n) : PaxosMessage n → Outcome n
  | .probe msg => self.handleProbe msg
  | .prepare msg => self.handlePrepare msg
  | .propose msg => self.handlePropose msg
  | .ack msg => self.handleAck msg

/-! ## Clients -/

/-- `handle_client_request` at time `now`. -/
def handleClientRequest (now : Nat) (self : Replica n) (req : Request) : Outcome n :=
  if self.role ≠ .leader then
    let redirect := if self.role = .candidate then self.index else self.leaderIndex
    (self, [.respond (.redirection ⟨req.serial, .redirect, redirect⟩)])
  else match self.responseCache req.serial with
    | some resp => (self, [.respond resp])
    | none =>
        if req.serial ∈ self.pendingClientSerials then (self, [])
        else
          let self :=
            { self with
              pendingClientSerials := insert req.serial self.pendingClientSerials
              pendingClientRequests := self.pendingClientRequests ++ [req]
              clientBatchDeadline :=
                some (self.clientBatchDeadline.getD (now + clientBatchWindow)) }
          if appendBatchSize ≤ self.pendingClientRequests.length then
            self.flushPendingClientRequests now
          else (self, [])

end DoomDraft.Paxos.Replica
