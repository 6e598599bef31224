import DoomDraft.Consensus.Completeness
import DoomDraft.Paxos.System

/-!
# Replicas refine log replication

A replica is related to its node in the abstract model: the retained part of
its log is a window of the node's log, its promise is the node's vote, its
match indices are bounded by acknowledgements, and its commit index covers only
chosen slots.  A packet in flight is related to the record it reports.

Handlers are specified by `Achieves`: a handler of replica `j` corresponds to
some steps of node `j`, after which a given relation holds and every event of
the handler is sound.
-/

namespace DoomDraft.Paxos

open Pancy Consensus

variable {n : Nat}

/-- The abstract model at the types of the replicas. -/
abbrev Abstract (n : Nat) := Consensus.State (Fin n) Request

/-- An abstract entry as a replica stores it at `slot`. -/
def stored (slot : Nat) (entry : Entry Request) : LogEntry :=
  ⟨slot, entry.round, entry.value⟩

/-- The first entries of an abstract log as a replica stores them. -/
def storedThrough (log : List (Entry Request)) : Nat → List LogEntry
  | 0 => []
  | slot + 1 => storedThrough log slot ++ ((entryAt log (slot + 1)).map (stored (slot + 1))).toList

theorem storedThrough_congr {log other : List (Entry Request)} {count : Nat}
    (same : ∀ slot ≤ count, entryAt log slot = entryAt other slot) :
    storedThrough log count = storedThrough other count := by
  induction count with
  | zero => rfl
  | succ slot ih =>
      simp only [storedThrough, same (slot + 1) le_rfl]
      rw [ih fun earlier le => same earlier (Nat.le_succ_of_le le)]

/-! ## The relation -/

/-- The replica retains the slots of `log` above its trim point, in contiguous
slots, and its watermarks lie within them. -/
structure HoldsLog (replica : Replica n) (log : List (Entry Request)) : Prop where
  nextSlot : replica.nextSlot = log.length + 1
  find : ∀ slot, replica.log.find? slot =
    if replica.trimThrough < slot then (entryAt log slot).map (stored slot) else none
  trimRound : 0 < replica.trimThrough →
    replica.trimRound = Consensus.roundAt log replica.trimThrough
  trimmed : replica.trimThrough ≤ replica.lastApplied
  applied : replica.lastApplied ≤ replica.commitIndex
  committed : replica.commitIndex ≤ log.length

/-- The trace accounts for what the replica has executed and discarded, and
the database and the response cache are the result of the executions. -/
structure HoldsState (history : Trace n) (j : Fin n) (replica : Replica n)
    (log : List (Entry Request)) : Prop where
  executed : history.executed j = storedThrough log replica.lastApplied
  discarded : history.discarded j = storedThrough log replica.trimThrough
  replayed : (replica.db, replica.responseCache) = replay (storedThrough log replica.lastApplied)

/-- Every slot up to `index` is chosen in some round up to `round`, and a leader
has committed the entry chosen there. -/
def DecidedThrough (a : Abstract n) (history : Trace n) (round index : Nat) : Prop :=
  ∀ slot, 0 < slot → slot ≤ index → ∃ q k entry, q ≤ round ∧ slot ≤ k ∧ Chosen a q k ∧
    entryAt (a.leaderLog q) slot = some entry ∧ history.LeaderCommitted (stored slot entry)

/-- Replica `j` in state `replica` implements node `j` of `a`. -/
structure Refines (a : Abstract n) (history : Trace n) (j : Fin n) (replica : Replica n) :
    Prop where
  index : replica.index = j
  round : a.round j = replica.currentRound
  log : HoldsLog replica (a.log j)
  state : HoldsState history j replica (a.log j)
  promised : a.vote j replica.currentRound = replica.promisedLeader
  stands : replica.role = .candidate → a.candidacy j replica.currentRound = some (a.log j)
  granted : replica.role = .candidate →
    ∀ v, replica.prepareOk v = true → a.vote v replica.currentRound = some j
  leads : replica.role = .leader ↔ a.leader replica.currentRound = some j
  matched : replica.role = .leader → ∀ v, replica.matchIndex v ≤ a.acked v replica.currentRound
  next : replica.role = .leader →
    ∀ v, 0 < replica.nextIndex v ∧ replica.nextIndex v ≤ replica.lastLogIndex + 1
  decided : DecidedThrough a history replica.currentRound replica.commitIndex

/-- The entries are those of `leaderLog` from slot `count + 1` on. -/
def IsBatch (leaderLog : List (Entry Request)) (count : Nat) (entries : List LogEntry) : Prop :=
  ∀ i entry, entries[i]? = some entry → ∃ source,
    entryAt leaderLog (count + (i + 1)) = some source ∧ entry = stored (count + (i + 1)) source

/-- A message to `target` reports what is on record. -/
def SoundMessage (a : Abstract n) (history : Trace n) (target : Fin n) :
    PaxosMessage n → Prop
  | .probe msg => ∃ candidate, a.candidacy msg.leader msg.round = some candidate ∧
      msg.lastLogIndex = candidate.length ∧ msg.lastLogRound = lastRound candidate
  | .prepare msg => msg.promised = true → a.vote msg.server msg.round = some target
  | .propose msg => msg.leader ≠ target ∧ a.leader msg.round = some msg.leader ∧
      msg.prevLogIndex ≤ (a.leaderLog msg.round).length ∧
      msg.prevLogRound = Consensus.roundAt (a.leaderLog msg.round) msg.prevLogIndex ∧
      DecidedThrough a history msg.round msg.decideThrough ∧
      IsBatch (a.leaderLog msg.round) msg.prevLogIndex msg.entries
  | .ack msg => msg.success = true →
      msg.matchIndex ≤ a.acked msg.server msg.round ∧ msg.nextIndex = msg.matchIndex + 1

/-- A response comes from executing leader-committed entries in slot order. -/
def SoundResponse (history : Trace n) (resp : Response) : Prop :=
  ∃ log count, (∀ slot, 0 < slot → slot ≤ count → ∃ entry,
    entryAt log slot = some entry ∧ history.LeaderCommitted (stored slot entry)) ∧
    (replay (storedThrough log count)).2 resp.serial = some resp

/-- What holds of an event for good once it has happened.  In a `careful` run
every executed entry has been committed by a leader. -/
def SoundEvent (careful : Prop) (a : Abstract n) (history : Trace n) : Event n → Prop
  | .send target msg => SoundMessage a history target msg
  | .respond resp => resp.isRedirection = true ∨ SoundResponse history resp
  | .committed entries => ∀ entry ∈ entries, ∃ q k source, entry.slot ≤ k ∧ Chosen a q k ∧
      entryAt (a.leaderLog q) entry.slot = some source ∧ entry = stored entry.slot source
  | .applied entry => careful → history.LeaderCommitted entry
  | .trimmed _ => True

/-! ## Stability -/

/-- The trace grows at its end. -/
theorem Trace.LeaderCommitted.mono {history later : Trace n} {entry : LogEntry}
    (committed : history.LeaderCommitted entry) :
    Trace.LeaderCommitted (history ++ later) entry := by
  obtain ⟨leader, entries, happened, member⟩ := committed
  exact ⟨leader, entries, List.mem_append_left _ happened, member⟩

theorem entryAt_leaderLog_mono {a b : Abstract n} (extension : Extends a b) (logs : Logs a)
    {r slot : Nat} {entry : Entry Request} (found : entryAt (a.leaderLog r) slot = some entry) :
    entryAt (b.leaderLog r) slot = some entry := by
  have same := extension.take_eq logs (entryAt_bounds found).2
  rw [entryAt_eq_of_take_eq same le_rfl, found]

theorem DecidedThrough.mono {a b : Abstract n} {history later : Trace n} {low high index : Nat}
    (extension : Extends a b) (logs : Logs a) (decided : DecidedThrough a history low index)
    (le : low ≤ high) : DecidedThrough b (history ++ later) high index := by
  intro slot positive within
  obtain ⟨q, k, entry, early, covered, chosen, found, committed⟩ := decided slot positive within
  exact ⟨q, k, entry, early.trans le, covered, chosen.mono extension logs,
    entryAt_leaderLog_mono extension logs found, committed.mono⟩

/-- The record grows while the trace stays. -/
theorem DecidedThrough.grow {a b : Abstract n} {history : Trace n} {low high index : Nat}
    (extension : Extends a b) (logs : Logs a) (decided : DecidedThrough a history low index)
    (le : low ≤ high) : DecidedThrough b history high index := by
  have grown : DecidedThrough b (history ++ []) high index := decided.mono extension logs le
  rwa [List.append_nil] at grown

theorem length_leaderLog_mono {a b : Abstract n} (extension : Extends a b) (logs : Logs a)
    (r : Nat) : (a.leaderLog r).length ≤ (b.leaderLog r).length := by
  have same := congrArg List.length (extension.take_eq logs (r := r) le_rfl)
  rw [List.take_length, List.length_take] at same
  omega

theorem SoundMessage.mono {a b : Abstract n} {history later : Trace n} {target : Fin n}
    {msg : PaxosMessage n} (extension : Extends a b) (logs : Logs a)
    (sound : SoundMessage a history target msg) :
    SoundMessage b (history ++ later) target msg := by
  cases msg with
  | probe msg =>
      obtain ⟨candidate, stands, index, round⟩ := sound
      exact ⟨candidate, extension.candidacy _ _ _ stands, index, round⟩
  | prepare msg => exact fun promised => extension.vote _ _ _ (sound promised)
  | propose msg =>
      obtain ⟨other, leads, prev, prevRound, decided, entries⟩ := sound
      refine ⟨other, extension.leader _ _ leads,
        prev.trans (length_leaderLog_mono extension logs _), ?_,
        decided.mono extension logs le_rfl, ?_⟩
      · rw [prevRound, extension.roundAt_eq logs prev]
      · intro i entry found
        obtain ⟨source, sourceFound, entryEq⟩ := entries i entry found
        exact ⟨source, entryAt_leaderLog_mono extension logs sourceFound, entryEq⟩
  | ack msg =>
      intro success
      exact ⟨(sound success).1.trans (extension.acked _ _), (sound success).2⟩

theorem SoundResponse.mono {history later : Trace n} {resp : Response}
    (sound : SoundResponse history resp) : SoundResponse (history ++ later) resp := by
  obtain ⟨log, count, committed, cached⟩ := sound
  refine ⟨log, count, ?_, cached⟩
  intro slot positive le
  obtain ⟨entry, found, happened⟩ := committed slot positive le
  exact ⟨entry, found, happened.mono⟩

theorem SoundEvent.mono {careful : Prop} {a b : Abstract n} {history later : Trace n}
    {event : Event n} (extension : Extends a b) (logs : Logs a)
    (sound : SoundEvent careful a history event) :
    SoundEvent careful b (history ++ later) event := by
  cases event with
  | send target msg => exact SoundMessage.mono extension logs sound
  | respond resp => exact sound.imp id SoundResponse.mono
  | committed entries =>
      intro entry member
      obtain ⟨q, k, source, covered, chosen, found, entryEq⟩ := sound entry member
      exact ⟨q, k, source, covered, chosen.mono extension logs,
        entryAt_leaderLog_mono extension logs found, entryEq⟩
  | applied entry => exact fun care => (sound care).mono
  | trimmed entry => trivial

/-! ## Traces of one replica -/

/-- The events of a handler of replica `j` as they enter the trace. -/
def tagged (j : Fin n) (events : List (Event n)) : Trace n :=
  events.map fun event => (j, event)

theorem executed_append (history later : Trace n) (j : Fin n) :
    Trace.executed (history ++ later) j = history.executed j ++ later.executed j :=
  List.filterMap_append

theorem discarded_append (history later : Trace n) (j : Fin n) :
    Trace.discarded (history ++ later) j = history.discarded j ++ later.discarded j :=
  List.filterMap_append

theorem executed_tagged_of_ne {i j : Fin n} (other : i ≠ j) (events : List (Event n)) :
    (tagged i events).executed j = [] := by
  unfold Trace.executed tagged
  rw [List.filterMap_map]
  apply List.filterMap_eq_nil_iff.mpr
  intro event _
  cases event <;> simp [other]

theorem discarded_tagged_of_ne {i j : Fin n} (other : i ≠ j) (events : List (Event n)) :
    (tagged i events).discarded j = [] := by
  unfold Trace.discarded tagged
  rw [List.filterMap_map]
  apply List.filterMap_eq_nil_iff.mpr
  intro event _
  cases event <;> simp [other]

/-- A handler of replica `i` leaves the relation of every other replica
intact. -/
theorem Refines.frame {a b : Abstract n} {history : Trace n} {i j : Fin n} {self : Replica n}
    (refines : Refines a history j self) (other : j ≠ i) (frame : Frame i a b)
    (extension : Extends a b) (logs : Logs a) (events : List (Event n)) :
    Refines b (history ++ tagged i events) j self := by
  have logEq := frame.log j other
  constructor
  · exact refines.index
  · exact (frame.round j other).trans refines.round
  · rw [logEq]
    exact refines.log
  · rw [logEq]
    refine ⟨?_, ?_, refines.state.replayed⟩
    · rw [executed_append, executed_tagged_of_ne other.symm, List.append_nil]
      exact refines.state.executed
    · rw [discarded_append, discarded_tagged_of_ne other.symm, List.append_nil]
      exact refines.state.discarded
  · rw [frame.vote j other]
    exact refines.promised
  · rw [frame.candidacy j other, logEq]
    exact refines.stands
  · exact fun candidate v ok => extension.vote v _ j (refines.granted candidate v ok)
  · exact ⟨fun leader => extension.leader _ _ (refines.leads.mp leader),
      fun leads => refines.leads.mpr (frame.leader j _ other leads)⟩
  · exact fun leader v => (refines.matched leader v).trans (extension.acked v _)
  · exact refines.next
  · exact refines.decided.mono extension logs le_rfl

/-- The events that neither execute nor discard an entry. -/
def Event.isQuiet : Event n → Bool
  | .send _ _ => true
  | .respond _ => true
  | .committed _ => true
  | .applied _ => false
  | .trimmed _ => false

theorem executed_tagged_of_quiet {j : Fin n} {events : List (Event n)}
    (quiet : ∀ event ∈ events, event.isQuiet = true) : (tagged j events).executed j = [] := by
  unfold Trace.executed tagged
  rw [List.filterMap_map]
  apply List.filterMap_eq_nil_iff.mpr
  intro event member
  have isQuiet := quiet event member
  cases event <;> simp_all [Event.isQuiet]

theorem discarded_tagged_of_quiet {j : Fin n} {events : List (Event n)}
    (quiet : ∀ event ∈ events, event.isQuiet = true) : (tagged j events).discarded j = [] := by
  unfold Trace.discarded tagged
  rw [List.filterMap_map]
  apply List.filterMap_eq_nil_iff.mpr
  intro event member
  have isQuiet := quiet event member
  cases event <;> simp_all [Event.isQuiet]

/-- A handler that only sends, responds and commits keeps the relation. -/
theorem Refines.quiet {a : Abstract n} {history : Trace n} {j : Fin n} {self : Replica n}
    (refines : Refines a history j self) (logs : Logs a) {events : List (Event n)}
    (quiet : ∀ event ∈ events, event.isQuiet = true) :
    Refines a (history ++ tagged j events) j self := by
  refine { refines with
    state := ⟨?_, ?_, refines.state.replayed⟩
    decided := refines.decided.mono (Extends.refl a) logs le_rfl }
  · rw [executed_append, executed_tagged_of_quiet quiet, List.append_nil]
    exact refines.state.executed
  · rw [discarded_append, discarded_tagged_of_quiet quiet, List.append_nil]
    exact refines.state.discarded

/-- The relation says nothing about the clients that a replica still has to
answer. -/
theorem Refines.withClients {a : Abstract n} {history : Trace n} {j : Fin n} {self : Replica n}
    (refines : Refines a history j self) (clients : Nat → Option Nat) (requests : List Request)
    (serials : Finset Nat) (deadline : Option Nat) :
    Refines a history j
      { self with
        pendingClients := clients
        pendingClientRequests := requests
        pendingClientSerials := serials
        clientBatchDeadline := deadline } :=
  { refines with log := { refines.log with }, state := { refines.state with } }

/-! ## Specifications of handlers -/

/-- The outcome of a handler of replica `j` started in `a` after `history`: some
steps of node `j` lead to a state where `post` holds and the events of the
handler are sound. -/
def Achieves (careful : Prop) (a : Abstract n) (history : Trace n) (j : Fin n)
    (outcome : Outcome n) (post : Abstract n → Trace n → Replica n → Prop) : Prop :=
  ∃ b, Steps j a b ∧ post b (history ++ tagged j outcome.2) outcome.1 ∧
    ∀ event ∈ outcome.2, SoundEvent careful b (history ++ tagged j outcome.2) event

namespace Achieves

variable {careful : Prop} {a : Abstract n} {history : Trace n} {j : Fin n}
  {post Q : Abstract n → Trace n → Replica n → Prop}

/-- A handler that does nothing further. -/
theorem pure {self : Replica n} (holds : post a history self) :
    Achieves careful a history j (self, []) post := by
  refine ⟨a, Relation.ReflTransGen.refl, ?_, ?_⟩
  · simpa [tagged] using holds
  · simp

/-- A weaker relation holds after the handler. -/
theorem imp {outcome : Outcome n} (achieves : Achieves careful a history j outcome Q)
    (weaken : ∀ b later self, Q b later self → post b later self) :
    Achieves careful a history j outcome post := by
  obtain ⟨b, steps, holds, sound⟩ := achieves
  exact ⟨b, steps, weaken b _ _ holds, sound⟩

/-- Abstract steps taken before the handler. -/
theorem after {outcome : Outcome n} {b : Abstract n} (steps : Steps j a b)
    (achieves : Achieves careful b history j outcome post) :
    Achieves careful a history j outcome post := by
  obtain ⟨c, more, holds, sound⟩ := achieves
  exact ⟨c, steps.trans more, holds, sound⟩

/-- Handlers in sequence. -/
theorem andThen {outcome : Outcome n} {next : Replica n → Outcome n} (invariant : Invariant a)
    (first : Achieves careful a history j outcome Q)
    (second : ∀ b later, Invariant b → Extends a b → Q b later outcome.1 →
      Achieves careful b later j (next outcome.1) post) :
    Achieves careful a history j (outcome.andThen next) post := by
  obtain ⟨b, steps, holds, sound⟩ := first
  obtain ⟨invariantB, extendsB⟩ := invariant.steps steps
  obtain ⟨c, more, stepsC, soundMore⟩ := second b _ invariantB extendsB holds
  obtain ⟨-, extendsC⟩ := invariantB.steps more
  have traceEq : history ++ tagged j (outcome.andThen next).2 =
      (history ++ tagged j outcome.2) ++ tagged j (next outcome.1).2 := by
    simp [Outcome.andThen, tagged]
  refine ⟨c, steps.trans more, ?_, ?_⟩
  · rw [traceEq]
    exact stepsC
  · intro event member
    rw [traceEq]
    rcases List.mem_append.mp member with member | member
    · exact (sound event member).mono extendsC invariantB.logs
    · exact soundMore event member

/-- Handlers in a loop keep a relation that each of them keeps. -/
theorem forEach {α : Type} {handler : Replica n → α → Outcome n}
    (each : ∀ b later self item, Invariant b → post b later self →
      Achieves careful b later j (handler self item) post)
    {items : List α} {self : Replica n} (invariant : Invariant a)
    (holds : post a history self) :
    Achieves careful a history j (Outcome.forEach handler items self) post := by
  induction items generalizing a history self with
  | nil => exact pure holds
  | cons item rest ih =>
      refine (each a history self item invariant holds).andThen invariant ?_
      intro b later invariantB _ holdsB
      exact ih invariantB holdsB

/-- A handler without abstract steps that only sends, responds and commits. -/
theorem emit {self : Replica n} {events : List (Event n)} (invariant : Invariant a)
    (refines : Refines a history j self)
    (quiet : ∀ event ∈ events, event.isQuiet = true)
    (sound : ∀ event ∈ events, SoundEvent careful a history event) :
    Achieves careful a history j (self, events) fun b later after =>
      Refines b later j after ∧ after = self := by
  refine ⟨a, Relation.ReflTransGen.refl, ⟨refines.quiet invariant.logs quiet, rfl⟩, ?_⟩
  intro event member
  exact (sound event member).mono (Extends.refl a) invariant.logs

end Achieves

end DoomDraft.Paxos
