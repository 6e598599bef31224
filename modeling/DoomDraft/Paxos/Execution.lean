import DoomDraft.Paxos.RetainedLog

/-!
# Executed entries

A replica executes the slots of its log one after another without leaving one
out.  Its database is the result of the requests executed, a serial that comes
again not being executed again, and its response cache has the response of the
one execution of every serial.
-/

namespace DoomDraft.Paxos

open Pancy Consensus

variable {n : Nat}

/-- The entries whose serial occurs neither in `seen` nor at an earlier entry. -/
def firstOfSerial (seen : List Nat) : List LogEntry → List LogEntry
  | [] => []
  | entry :: rest =>
      if entry.req.serial ∈ seen then firstOfSerial seen rest
      else entry :: firstOfSerial (entry.req.serial :: seen) rest

/-- Run `process_req` on the requests of the entries in order. -/
def processAll (db : PancyDb) (entries : List LogEntry) : PancyDb :=
  entries.foldl (fun db entry => (db.processReq entry.req).1) db

/-- The database after executing `entries` on an empty one, each serial once. -/
def databaseOf (entries : List LogEntry) : PancyDb :=
  processAll PancyDb.empty (firstOfSerial [] entries)

/-! ## Replays execute each serial once -/

/-- The serials that a response cache knows. -/
def Caches (cache : Nat → Option Response) (seen : List Nat) : Prop :=
  ∀ serial, (cache serial).isSome ↔ serial ∈ seen

theorem Caches.execute {state : PancyDb × (Nat → Option Response)} {seen : List Nat}
    {entry : LogEntry} (caches : Caches state.2 seen) (fresh : entry.req.serial ∉ seen) :
    execute state entry =
        ((state.1.processReq entry.req).1,
          Function.update state.2 entry.req.serial (some (state.1.processReq entry.req).2)) ∧
      Caches (execute state entry).2 (entry.req.serial :: seen) := by
  have missing : (state.2 entry.req.serial).isSome = false := by
    rw [← Bool.not_eq_true, caches]
    exact fresh
  have executed : Paxos.execute state entry = _ := if_neg (by simp [missing])
  refine ⟨executed, ?_⟩
  intro serial
  rw [executed, List.mem_cons]
  by_cases same : serial = entry.req.serial
  · simp [same]
  · simp only [Function.update_of_ne same, same, false_or]
    exact caches serial

theorem fst_foldl_execute {state : PancyDb × (Nat → Option Response)} (seen : List Nat)
    (caches : Caches state.2 seen) (entries : List LogEntry) :
    (entries.foldl execute state).1 = processAll state.1 (firstOfSerial seen entries) := by
  induction entries generalizing state seen with
  | nil => rfl
  | cons entry rest ih =>
      rw [List.foldl_cons, firstOfSerial]
      split
      · rename_i known
        have unchanged : execute state entry = state := if_pos ((caches _).mpr known)
        rw [unchanged]
        exact ih seen caches
      · rename_i fresh
        obtain ⟨executed, cachesNext⟩ := caches.execute fresh
        rw [ih _ cachesNext, executed]
        rfl

theorem fst_replay (entries : List LogEntry) : (replay entries).1 = databaseOf entries :=
  fst_foldl_execute [] (fun _ => by simp) entries

theorem snd_replay_append {entries : List LogEntry} {serial : Nat} {resp : Response}
    (cached : (replay entries).2 serial = some resp) (more : List LogEntry) :
    (replay (entries ++ more)).2 serial = some resp := by
  induction more using List.reverseRecOn with
  | nil => rwa [List.append_nil]
  | append_singleton more last ih =>
      rw [← List.append_assoc, replay_append]
      exact execute_of_cached ih

/-- The first execution of a serial gives its response. -/
theorem snd_replay_first {before : List LogEntry} {entry : LogEntry}
    (earlier : ∀ other ∈ before, other.req.serial ≠ entry.req.serial) :
    (replay (before ++ [entry])).2 entry.req.serial =
      some ((databaseOf before).processReq entry.req).2 := by
  have missing : (replay before).2 entry.req.serial = none := by
    cases cached : (replay before).2 entry.req.serial with
    | none => rfl
    | some other =>
        obtain ⟨first, source, isPrefix, same, -⟩ := exists_first_of_replay cached
        exact absurd same (earlier source (isPrefix.subset (by simp)))
  rw [replay_append, execute, if_neg (by simp [missing]), ← fst_replay]
  simp

/-- The response cache after a replay: the serials of the entries, each with the
response of its first execution. -/
theorem snd_replay_eq_some_iff {entries : List LogEntry} {serial : Nat} {resp : Response} :
    (replay entries).2 serial = some resp ↔
      ∃ before entry after, entries = before ++ entry :: after ∧ entry.req.serial = serial ∧
        (∀ other ∈ before, other.req.serial ≠ serial) ∧
        resp = ((databaseOf before).processReq entry.req).2 := by
  constructor
  · intro cached
    obtain ⟨before, entry, ⟨after, rfl⟩, rfl, earlier, replayed⟩ := exists_first_of_replay cached
    rw [snd_replay_first earlier] at replayed
    exact ⟨before, entry, after, by simp, rfl, earlier, (Option.some.inj replayed).symm⟩
  · rintro ⟨before, entry, after, rfl, rfl, earlier, rfl⟩
    have split : before ++ entry :: after = (before ++ [entry]) ++ after := by simp
    rw [split]
    exact snd_replay_append (snd_replay_first earlier) after

/-! ## Execution in every run -/

/-- In every run and on every replica, what has been executed is one entry for
every slot up to `last_applied_` (no turn of `apply_committed_entries` has
passed a slot without its entry), the one that the log holds there as long as
it is retained.  The database comes from executing each serial once, and the
response cache has exactly the serials executed, each with the response of its
first execution. -/
theorem executed_history {initialLeader : Fin n} {actions : List (Action n)} {s : System n}
    (run : (System.initial initialLeader).perform actions = some s) (j : Fin n) :
    ∃ executed : List LogEntry, executed = s.history.executed j ∧
      executed.length = (s.replicas j).lastApplied ∧
      (∀ k entry, executed[k]? = some entry → entry.slot = k + 1) ∧
      (∀ slot, (s.replicas j).trimThrough < slot → slot ≤ (s.replicas j).lastApplied →
        (s.replicas j).log.find? slot = executed[slot - 1]?) ∧
      (s.replicas j).db = databaseOf executed ∧
      ∀ serial resp, (s.replicas j).responseCache serial = some resp ↔
        ∃ before entry after, executed = before ++ entry :: after ∧ entry.req.serial = serial ∧
          (∀ other ∈ before, other.req.serial ≠ serial) ∧
          resp = ((databaseOf before).processReq entry.req).2 := by
  obtain ⟨a, implements⟩ := exists_implements run
  have refines := (implements.settled j).1
  have holds := refines.log
  have filled := holds.filled holds.applied
  have replayed := refines.state.replayed
  rw [← refines.state.executed] at replayed
  refine ⟨_, rfl, refines.length_trace.1, ?_, ?_, ?_, ?_⟩
  · intro k entry found
    rw [refines.state.executed] at found
    exact slot_of_storedThrough filled found
  · intro slot above le
    rw [refines.state.executed, getElem?_storedThrough filled (Nat.zero_lt_of_lt above) le,
      holds.find, if_pos above]
  · rw [← fst_replay, ← replayed]
  · intro serial resp
    rw [← snd_replay_eq_some_iff, ← replayed]

theorem executed_history_retriedWrite : ∃ s : System 3, ∃ executed : List LogEntry,
    (System.initial 0).perform retriedWrite = some s ∧ executed = s.history.executed 1 ∧
      executed.map (fun entry => entry.req.serial) = [0, 0] ∧
      executed.length = (s.replicas 1).lastApplied ∧ (s.replicas 1).db = databaseOf executed := by
  have facts : ((System.initial 0).perform retriedWrite).any (fun s =>
      (s.history.executed 1).map (fun entry => entry.req.serial) = [0, 0]) = true := by
    decide +kernel
  obtain ⟨s, run, twice⟩ := (Option.any_eq_true _ _).mp facts
  obtain ⟨executed, rfl, length, -, -, db, -⟩ := executed_history run 1
  exact ⟨s, _, run, rfl, of_decide_eq_true twice, length, db⟩

end DoomDraft.Paxos
