import DoomDraft.Foundation.Linearizable
import DoomDraft.Paxos.Requests

/-!
# Linearizability of the cluster

To its clients the cluster is one `pancydb`: the answers of a run are those of the
requests taken one after another, in an order that agrees with real time.  A request
is identified by its serial, under which a client may repeat it at any replica.
-/

namespace DoomDraft.Paxos

open Pancy Consensus Observation

variable {n : Nat}

/-- What the clients of the cluster see. -/
abbrev ClientHistory := List (Observation Nat Request Response)

/-- The invocation in an action. -/
def Action.invocation : Action n → ClientHistory
  | .request _ _ req => [.invoke req.serial req]
  | _ => []

/-- The answers in a trace.  A redirection is none, since the client asks again
elsewhere. -/
def Trace.responses (history : Trace n) : List Response :=
  history.filterMap fun
    | (_, .respond resp) => if resp.isRedirection then none else some resp
    | _ => none

/-- What clients see of a trace. -/
def Trace.answers (history : Trace n) : ClientHistory :=
  history.responses.map fun resp => .answer resp.serial resp

/-- What the clients see of a run. -/
def System.clientHistory (s : System n) : List (Action n) → ClientHistory
  | [] => []
  | action :: rest =>
      match s.step action with
      | none => []
      | some t => (action.invocation ++ Trace.answers (t.history.drop s.history.length)) ++
          t.clientHistory rest

/-! ## Reading a client history -/

theorem Trace.mem_responses {history : Trace n} {resp : Response} :
    resp ∈ history.responses ↔
      (∃ v, (v, Event.respond resp) ∈ history) ∧ resp.isRedirection = false := by
  rw [Trace.responses, List.mem_filterMap]
  constructor
  · rintro ⟨⟨v, event⟩, happened, isAnswer⟩
    cases event with
    | respond other =>
        dsimp only at isAnswer
        split at isAnswer
        · contradiction
        · rename_i answers
          cases isAnswer
          exact ⟨⟨v, happened⟩, Bool.eq_false_iff.mpr answers⟩
    | send target msg => contradiction
    | committed entries => contradiction
    | applied entry => contradiction
    | trimmed entry => contradiction
  · rintro ⟨⟨v, happened⟩, answers⟩
    exact ⟨_, happened, if_neg (Bool.eq_false_iff.mp answers)⟩

theorem Trace.responses_mono {history later : Trace n} (isPrefix : history <+: later)
    {resp : Response} (member : resp ∈ history.responses) : resp ∈ later.responses := by
  obtain ⟨⟨v, happened⟩, answers⟩ := Trace.mem_responses.mp member
  exact Trace.mem_responses.mpr ⟨⟨v, isPrefix.subset happened⟩, answers⟩

theorem Trace.mem_answers {history : Trace n} {id : Nat} {ret : Response} :
    Observation.answer id ret ∈ history.answers ↔ ret ∈ history.responses ∧ ret.serial = id := by
  simp only [Trace.answers, List.mem_map, Observation.answer.injEq]
  constructor
  · rintro ⟨resp, member, serial, rfl⟩
    exact ⟨member, serial⟩
  · rintro ⟨member, serial⟩
    exact ⟨ret, member, serial, rfl⟩

theorem Action.answer_notMem_invocation (action : Action n) (id : Nat) (ret : Response) :
    Observation.answer id ret ∉ action.invocation := by
  cases action <;> simp [Action.invocation]

theorem System.invoke_mem_clientHistory {s t : System n} {actions : List (Action n)}
    (run : s.perform actions = some t) {i : Fin n} {now : Nat} {req : Request}
    (member : Action.request i now req ∈ actions) :
    Observation.invoke req.serial req ∈ s.clientHistory actions := by
  induction actions generalizing s with
  | nil => exact absurd member List.not_mem_nil
  | cons action rest ih =>
      obtain ⟨next, stepped, continued⟩ := Option.bind_eq_some_iff.mp run
      simp only [System.clientHistory, stepped]
      rcases List.mem_cons.mp member with rfl | later
      · exact List.mem_append_left _ (List.mem_append_left _ List.mem_cons_self)
      · exact List.mem_append_right _ (ih continued later)

/-- An observation in the middle of a history is in its last part or in the one before. -/
theorem split_cases {first second third early late : ClientHistory} {x : Observation Nat Request
    Response} (split : (first ++ second) ++ third = early ++ x :: late) (notFirst : x ∉ first) :
    (first <+: early ∧ x ∈ second) ∨
      ∃ more, early = (first ++ second) ++ more ∧ third = more ++ x :: late := by
  rcases List.append_eq_append_iff.mp split with ⟨more, earlyEq, thirdEq⟩ | ⟨more, now, rest⟩
  · exact Or.inr ⟨more, earlyEq, thirdEq⟩
  · cases more with
    | nil => exact Or.inr ⟨[], by simpa using now.symm, rest.symm⟩
    | cons head tail =>
        obtain ⟨rfl, -⟩ := List.cons.inj rest
        have within : early ++ [x] <+: first ++ second := ⟨tail, by simp [now]⟩
        have member : x ∈ first ++ second := within.subset (by simp)
        refine Or.inl ⟨?_, (List.mem_append.mp member).resolve_left notFirst⟩
        rcases List.prefix_or_prefix_of_prefix (List.prefix_append first second) within with
          shorter | longer
        · rcases List.prefix_concat_iff.mp shorter with rfl | isPrefix
          · exact absurd (List.mem_append_right _ List.mem_cons_self) notFirst
          · exact isPrefix
        · exact absurd (longer.subset (List.mem_append_right _ List.mem_cons_self)) notFirst

/-- The step at which an answer was given; what was invoked by then is seen before. -/
theorem System.exists_answering {s t : System n} {actions : List (Action n)}
    (run : s.perform actions = some t) {early late : ClientHistory} {id : Nat} {ret : Response}
    (split : s.clientHistory actions = early ++ .answer id ret :: late) :
    ∃ first rest next, actions = first ++ rest ∧ s.perform first = some next ∧
      ret ∈ next.history.responses ∧ ret.serial = id ∧
      ∀ i now req, Action.request i now req ∈ first →
        Observation.invoke req.serial req ∈ early := by
  induction actions generalizing s early with
  | nil => simp [System.clientHistory] at split
  | cons action rest ih =>
      obtain ⟨next, stepped, continued⟩ := Option.bind_eq_some_iff.mp run
      simp only [System.clientHistory, stepped] at split
      rcases split_cases split (action.answer_notMem_invocation id ret) with
        ⟨invoked, answer⟩ | ⟨more, rfl, later⟩
      · obtain ⟨given, serial⟩ := Trace.mem_answers.mp answer
        obtain ⟨⟨v, happened⟩, answers⟩ := Trace.mem_responses.mp given
        refine ⟨[action], rest, next, rfl, ?_, ?_, serial,
          fun i now req member => invoked.subset ?_⟩
        · exact Option.bind_eq_some_iff.mpr ⟨next, stepped, rfl⟩
        · exact Trace.mem_responses.mpr ⟨⟨v, List.mem_of_mem_drop happened⟩, answers⟩
        · obtain rfl := List.mem_singleton.mp member
          exact List.mem_cons_self
      · obtain ⟨first, remaining, reached, rfl, reaches, answered, serial, invoked⟩ :=
          ih continued later
        refine ⟨action :: first, remaining, reached, rfl, ?_, answered, serial,
          fun i now req member => ?_⟩
        · exact Option.bind_eq_some_iff.mpr ⟨next, stepped, reaches⟩
        · rcases List.mem_cons.mp member with rfl | later
          · exact List.mem_append_left _ (List.mem_append_left _ List.mem_cons_self)
          · exact List.mem_append_right _ (invoked i now req later)

/-! ## The committed log -/

/-- Leader-committed entries from slot 1 on without a gap. -/
structure CommittedPrefix (history : Trace n) (entries : List LogEntry) : Prop where
  slots : ∀ i entry, entries[i]? = some entry → entry.slot = i + 1
  committed : ∀ entry ∈ entries, history.LeaderCommitted entry

section Uniqueness

variable {history : Trace n} {short long : List LogEntry}

/-- Of two committed prefixes one continues the other. -/
theorem CommittedPrefix.isPrefix
    (unique : ∀ first second, history.LeaderCommitted first → history.LeaderCommitted second →
      first.slot = second.slot → first = second)
    (shortPrefix : CommittedPrefix history short) (longPrefix : CommittedPrefix history long)
    (le : short.length ≤ long.length) : short <+: long := by
  rw [List.prefix_iff_getElem]
  refine ⟨le, fun i within => ?_⟩
  have shortFound := List.getElem?_eq_getElem within
  have longFound := List.getElem?_eq_getElem (within.trans_le le)
  refine unique _ _ (shortPrefix.committed _ (List.getElem_mem within))
    (longPrefix.committed _ (List.getElem_mem (within.trans_le le))) ?_
  rw [shortPrefix.slots i _ shortFound, longPrefix.slots i _ longFound]

/-- Finitely many committed prefixes are all in one. -/
theorem exists_committedPrefix {ι : Type}
    (unique : ∀ first second, history.LeaderCommitted first → history.LeaderCommitted second →
      first.slot = second.slot → first = second)
    (entriesOf : ι → List LogEntry → Prop) (items : List ι)
    (each : ∀ item ∈ items, ∃ entries, entriesOf item entries ∧ CommittedPrefix history entries) :
    ∃ log, CommittedPrefix history log ∧
      ∀ item ∈ items, ∃ entries, entriesOf item entries ∧ entries <+: log := by
  induction items with
  | nil =>
      refine ⟨[], ⟨fun i entry found => by simp at found, fun entry member => ?_⟩, ?_⟩
      · exact absurd member List.not_mem_nil
      · exact fun item member => absurd member List.not_mem_nil
  | cons item rest ih =>
      rw [List.forall_mem_cons] at each
      obtain ⟨entries, isOf, entriesPrefix⟩ := each.1
      obtain ⟨log, logPrefix, covers⟩ := ih each.2
      rcases Nat.le_total entries.length log.length with le | le
      · exact ⟨log, logPrefix, List.forall_mem_cons.mpr
          ⟨⟨entries, isOf, entriesPrefix.isPrefix unique logPrefix le⟩, covers⟩⟩
      · have extension := logPrefix.isPrefix unique entriesPrefix le
        refine ⟨entries, entriesPrefix, List.forall_mem_cons.mpr
          ⟨⟨entries, isOf, List.prefix_rfl⟩, fun other member => ?_⟩⟩
        obtain ⟨others, othersOf, within⟩ := covers other member
        exact ⟨others, othersOf, within.trans extension⟩

end Uniqueness

theorem CommittedThrough.committedPrefix {history : Trace n} {serial : Nat}
    {entries : List LogEntry} (through : CommittedThrough history serial entries) :
    CommittedPrefix history entries :=
  ⟨through.slots, through.committed⟩

theorem CommittedThrough.mono {history later : Trace n} (isPrefix : history <+: later)
    {serial : Nat} {entries : List LogEntry} (through : CommittedThrough history serial entries) :
    CommittedThrough later serial entries := by
  obtain ⟨more, rfl⟩ := isPrefix
  exact { through with committed := fun entry member => (through.committed entry member).mono }

/-! ## Executing the log as one object -/

/-- The operation that an entry logs. -/
def LogEntry.operation (entry : LogEntry) : Nat × Request :=
  (entry.req.serial, entry.req)

@[simp]
theorem LogEntry.operation_fst (entry : LogEntry) : entry.operation.1 = entry.req.serial :=
  rfl

theorem firsts_operation (entries : List LogEntry) :
    firsts (entries.map LogEntry.operation) =
      (firstOfSerial [] entries).map LogEntry.operation := by
  suffices ∀ (order : List (Nat × Request)) (seen : List Nat),
      (∀ serial, serial ∈ order.map Prod.fst ↔ serial ∈ seen) →
      (entries.map LogEntry.operation).foldl takePlace order =
        order ++ (firstOfSerial seen entries).map LogEntry.operation by
    exact this [] [] fun _ => Iff.rfl
  induction entries with
  | nil => simp [firstOfSerial]
  | cons entry rest ih =>
      intro order seen knows
      have known := knows entry.req.serial
      rw [List.map_cons, List.foldl_cons, takePlace, firstOfSerial, LogEntry.operation_fst]
      by_cases repeated : entry.req.serial ∈ seen
      · rw [if_pos (known.mpr repeated), if_pos repeated]
        exact ih order seen knows
      · rw [if_neg fun old => repeated (known.mp old), if_neg repeated,
          ih _ (entry.req.serial :: seen), List.map_cons, List.append_assoc]
        · rfl
        · intro serial
          rw [List.map_append, List.mem_append, knows, List.mem_cons, List.map_singleton,
            List.mem_singleton, or_comm]
          rfl

theorem finalState_firsts (entries : List LogEntry) :
    finalState PancyDb.processReq PancyDb.empty (firsts (entries.map LogEntry.operation)) =
      databaseOf entries := by
  rw [firsts_operation, finalState, List.foldl_map]
  rfl

/-! ## Every run -/

theorem CommittedThrough.supports {history : Trace n} {log entries : List LogEntry}
    {resp : Response} {early : ClientHistory}
    (through : CommittedThrough history resp.serial entries) (isPrefix : entries <+: log)
    (replayed : (replay entries).2 resp.serial = some resp)
    (invoked : ∀ entry, history.LeaderCommitted entry →
      Observation.invoke entry.req.serial entry.req ∈ early) :
    ∃ before op, Supports PancyDb.processReq PancyDb.empty (log.map LogEntry.operation) early
      resp.serial resp before op := by
  obtain ⟨last, isLast, holds⟩ := through.last
  obtain ⟨before, rfl⟩ : ∃ before, entries = before ++ [last] :=
    List.getLast?_eq_some_iff.mp isLast
  have fresh : ∀ entry ∈ before, entry.req.serial ≠ resp.serial := by
    simpa using through.first
  refine ⟨before.map LogEntry.operation, last.req, ?_, ?_, ?_, ?_⟩
  · have mapped := isPrefix.map LogEntry.operation
    rwa [List.map_append, List.map_singleton, LogEntry.operation, holds] at mapped
  · rintro _ member
    obtain ⟨entry, entryMem, rfl⟩ := List.mem_map.mp member
    exact fresh entry entryMem
  · rw [← holds, snd_replay_first fun other member => holds ▸ fresh other member] at replayed
    rw [finalState_firsts]
    exact (Option.some.inj replayed).symm
  · rintro _ member
    have mapped : (resp.serial, last.req) = last.operation := by rw [LogEntry.operation, holds]
    rw [mapped, ← List.map_singleton, ← List.map_append] at member
    obtain ⟨entry, entryMem, rfl⟩ := List.mem_map.mp member
    exact ⟨entry.req, invoked entry (through.committed entry entryMem)⟩

/-- What a leader has committed was invoked. -/
theorem invoked_of_leaderCommitted {initialLeader : Fin n} {actions : List (Action n)}
    {s : System n} (run : (System.initial initialLeader).perform actions = some s)
    {history : ClientHistory}
    (seen : ∀ i now req, Action.request i now req ∈ actions →
      Observation.invoke req.serial req ∈ history)
    (entry : LogEntry) (committed : s.history.LeaderCommitted entry) :
    Observation.invoke entry.req.serial entry.req ∈ history := by
  have carries := System.Carries.perform
    (P := fun req => Observation.invoke req.serial req ∈ history) run (by
      intro action member
      cases action with
      | request i now req => exact seen i now req member
      | deliver position => trivial
      | lose position => trivial
      | flush i now => trivial
      | heartbeat i => trivial
      | electionTimeout i => trivial)
  obtain ⟨leader, entries, happened, member⟩ := committed
  exact carries.happened leader _ happened entry member

theorem exists_committedThrough_of_mem {initialLeader : Fin n} {actions : List (Action n)}
    {s : System n} (run : (System.initial initialLeader).perform actions = some s)
    {resp : Response} (member : resp ∈ s.history.responses) :
    ∃ entries, CommittedThrough s.history resp.serial entries ∧
      (replay entries).2 resp.serial = some resp := by
  obtain ⟨a, implements⟩ := exists_implements run
  obtain ⟨⟨v, happened⟩, answers⟩ := Trace.mem_responses.mp member
  rcases implements.happened v _ happened with redirection | sound
  · rw [answers] at redirection
    contradiction
  · exact sound.exists_committedThrough

/-- The cluster is linearizable.  In every run, whatever packets are lost, delayed or
reordered and whatever requests are repeated, the answers that clients get are those
of one `pancydb` that takes the requests of the committed log one after another, each
serial at its first slot, and a request that arrives after an answer was sent comes
behind the one answered. -/
theorem linearizable {initialLeader : Fin n} {actions : List (Action n)} {s : System n}
    (run : (System.initial initialLeader).perform actions = some s) :
    ∃ log, CommittedPrefix s.history log ∧
      Linearizes PancyDb.processReq PancyDb.empty
        ((System.initial initialLeader).clientHistory actions)
        ((firstOfSerial [] log).map LogEntry.operation) := by
  obtain ⟨a, implements⟩ := exists_implements run
  have unique : ∀ left right, s.history.LeaderCommitted left →
      s.history.LeaderCommitted right → left.slot = right.slot → left = right :=
    fun _ _ => implements.leaderCommitted_unique
  obtain ⟨log, logPrefix, covers⟩ := exists_committedPrefix unique
    (fun resp : Response => CommittedThrough s.history resp.serial) s.history.responses
    fun resp member => by
      obtain ⟨entries, through, -⟩ := exists_committedThrough_of_mem run member
      exact ⟨entries, through, through.committedPrefix⟩
  refine ⟨log, logPrefix, ?_⟩
  rw [← firsts_operation]
  refine linearizes_firsts ?_ ?_
  · intro id op member
    obtain ⟨entry, entryMem, same⟩ := List.mem_map.mp member
    cases same
    exact invoked_of_leaderCommitted run
      (fun i now req requested => System.invoke_mem_clientHistory run requested) entry
      (logPrefix.committed entry entryMem)
  · rintro early late id ret split
    obtain ⟨first, rest, next, rfl, reaches, answered, rfl, invoked⟩ :=
      System.exists_answering run split
    obtain ⟨middle, reached, continued⟩ : ∃ middle, (System.initial initialLeader).perform first =
        some middle ∧ middle.perform rest = some s := by
      rw [System.perform, Transition.perform_append] at run
      exact Option.bind_eq_some_iff.mp run
    obtain rfl := Option.some.inj (reaches.symm.trans reached)
    -- what explains the answer where it was given still does at the end
    have grows := System.history_isPrefix continued
    obtain ⟨entries, through, replayed⟩ := exists_committedThrough_of_mem reaches answered
    obtain ⟨others, othersThrough, within⟩ := covers ret (Trace.responses_mono grows answered)
    rw [← (through.mono grows).eq unique othersThrough] at within
    exact through.supports within replayed (invoked_of_leaderCommitted reaches invoked)

/-- The write that replica 1 logs and executes again takes place once. -/
theorem linearizable_retriedWrite : ∃ (s : System 3) (log : List LogEntry),
    (System.initial 0).perform retriedWrite = some s ∧
      (System.initial 0).clientHistory retriedWrite =
        [.invoke 0 (writeOf 0), .answer 0 (.put ⟨0, .ok, [], 0, 1⟩), .invoke 0 (writeOf 0),
          .answer 0 (.put ⟨0, .ok, [], 0, 1⟩)] ∧
      Linearizes PancyDb.processReq PancyDb.empty
        ((System.initial 0).clientHistory retriedWrite)
        ((firstOfSerial [] log).map LogEntry.operation) := by
  have runs : ((System.initial 0).perform retriedWrite).isSome = true := by
    decide +kernel
  obtain ⟨s, run⟩ := Option.isSome_iff_exists.mp runs
  obtain ⟨log, -, linearizes⟩ := linearizable run
  exact ⟨s, log, run, by decide +kernel, linearizes⟩

end DoomDraft.Paxos
