import DoomDraft.Paxos.Correctness

/-!
# Safety of the cluster

Election safety and leader completeness hold in every run.  State-machine
safety holds in the runs that never take the commit index of a follower past
what a proposal vouches for, and fails in a run that does.
-/

namespace DoomDraft.Paxos

open Pancy Consensus

variable {n : Nat}

/-! ## Runs -/

/-- The state after any run from the initial cluster. -/
theorem exists_implements {initialLeader : Fin n} {actions : List (Action n)} {s : System n}
    (run : (System.initial initialLeader).perform actions = some s) :
    ∃ a, Implements False a s := by
  obtain ⟨a, implements, -⟩ := (implements_initial initialLeader).perform
    (Transition.permitted_of_forall (fun _ _ => False.elim) _ _) run
  exact ⟨a, implements⟩

/-- Two points of one run, the later with the larger record. -/
theorem exists_implements_of_le {initialLeader : Fin n} {actions : List (Action n)} {t u : Nat}
    {early late : System n} (le : t ≤ u)
    (first : (System.initial initialLeader).perform (actions.take t) = some early)
    (second : (System.initial initialLeader).perform (actions.take u) = some late) :
    ∃ a b, Implements False a early ∧ Implements False b late ∧ Extends a b := by
  obtain ⟨a, implementsA⟩ := exists_implements first
  obtain ⟨more, continued⟩ := Transition.exists_perform_of_take le first second
  obtain ⟨b, implementsB, extension⟩ := implementsA.perform
    (Transition.permitted_of_forall (fun _ _ => False.elim) _ _) continued
  exact ⟨a, b, implementsA, implementsB, extension⟩

/-- Replica `j` is leader of round `r`. -/
def System.Leads (s : System n) (j : Fin n) (r : Nat) : Prop :=
  (s.replicas j).role = .leader ∧ (s.replicas j).currentRound = r

instance (s : System n) (j : Fin n) (r : Nat) : Decidable (s.Leads j r) :=
  inferInstanceAs (Decidable (_ ∧ _))

theorem Implements.leader {careful : Prop} {a : Abstract n} {s : System n}
    (implements : Implements careful a s) {j : Fin n} {r : Nat} (leads : s.Leads j r) :
    a.leader r = some j := by
  rw [← leads.2]
  exact (implements.settled j).1.leads.mp leads.1

/-- A write that a client sends in the runs below. -/
def writeOf (serial : Nat) : Request :=
  .put { serial := serial, key := [], value := [] }

/-- Three replicas are written as numerals. -/
instance replicaLiteral : NeZero 3 := inferInstance

/-- Three replicas: replica 0 commits a write with replica 1, which replica 2
then elects leader of round 1. -/
def failover : List (Action 3) :=
  [.request 0 0 (writeOf 0), .flush 0 0, .deliver 0, .deliver 1, .electionTimeout 1, .deliver 2,
    .deliver 2]

/-! ## Election safety -/

/-- At most one replica is ever leader of a round, whatever the two points of
the run at which one looks. -/
theorem election_safety {initialLeader : Fin n} {actions : List (Action n)} {t u : Nat}
    {first second : System n}
    (firstRun : (System.initial initialLeader).perform (actions.take t) = some first)
    (secondRun : (System.initial initialLeader).perform (actions.take u) = some second)
    {i j : Fin n} {r : Nat} (firstLeads : first.Leads i r) (secondLeads : second.Leads j r) :
    i = j := by
  rcases Nat.le_total t u with le | le
  · obtain ⟨a, b, implementsA, implementsB, extension⟩ :=
      exists_implements_of_le le firstRun secondRun
    have still := extension.leader r i (implementsA.leader firstLeads)
    rw [implementsB.leader secondLeads] at still
    exact (Option.some.inj still).symm
  · obtain ⟨a, b, implementsA, implementsB, extension⟩ :=
      exists_implements_of_le le secondRun firstRun
    have still := extension.leader r j (implementsA.leader secondLeads)
    rw [implementsB.leader firstLeads] at still
    exact Option.some.inj still

theorem election_safety_failover : ∃ first second : System 3,
    (System.initial 0).perform (failover.take 4) = some first ∧
      (System.initial 0).perform (failover.take 7) = some second ∧
      first.Leads 0 0 ∧ second.Leads 0 0 ∧ (0 : Fin 3) = 0 := by
  have early :
      ((System.initial 0).perform (failover.take 4)).any (fun s => s.Leads 0 0) = true := by
    decide +kernel
  have late : ((System.initial 0).perform (failover.take 7)).any (fun s => s.Leads 0 0) = true := by
    decide +kernel
  obtain ⟨first, firstRun, firstLeads⟩ := (Option.any_eq_true _ _).mp early
  obtain ⟨second, secondRun, secondLeads⟩ := (Option.any_eq_true _ _).mp late
  have firstLeads := of_decide_eq_true firstLeads
  have secondLeads := of_decide_eq_true secondLeads
  exact ⟨first, second, firstRun, secondRun, firstLeads, secondLeads,
    election_safety firstRun secondRun firstLeads secondLeads⟩

/-! ## Leader completeness -/

/-- The entry of replica `j` at `slot`: in its log, or trimmed from it. -/
def System.HasAt (s : System n) (j : Fin n) (slot : Nat) (entry : LogEntry) : Prop :=
  (s.replicas j).log.find? slot = some entry ∨
    slot ≤ (s.replicas j).trimThrough ∧ entry.slot = slot ∧ entry ∈ s.history.discarded j

theorem mem_storedThrough {log : List (Entry Request)} {count : Nat} {kept : LogEntry} :
    kept ∈ storedThrough log count ↔ ∃ slot entry, slot ≤ count ∧
      entryAt log slot = some entry ∧ kept = stored slot entry := by
  induction count with
  | zero =>
      simp only [storedThrough, List.not_mem_nil, false_iff]
      rintro ⟨slot, entry, le, found, -⟩
      have := (entryAt_bounds found).1
      omega
  | succ count ih =>
      rw [storedThrough, List.mem_append, ih, Option.mem_toList, Option.map_eq_some_iff]
      constructor
      · rintro (⟨slot, entry, le, found, rfl⟩ | ⟨entry, found, rfl⟩)
        · exact ⟨slot, entry, Nat.le_succ_of_le le, found, rfl⟩
        · exact ⟨count + 1, entry, le_rfl, found, rfl⟩
      · rintro ⟨slot, entry, le, found, rfl⟩
        rcases Nat.lt_or_eq_of_le le with below | rfl
        · exact Or.inl ⟨slot, entry, Nat.le_of_lt_succ below, found, rfl⟩
        · exact Or.inr ⟨entry, found, rfl⟩

/-- What a replica has at a slot is what its node has in its log. -/
theorem Implements.hasAt_iff {careful : Prop} {a : Abstract n} {s : System n}
    (implements : Implements careful a s) {j : Fin n} {slot : Nat} {entry : Entry Request}
    (found : entryAt (a.log j) slot = some entry) (other : LogEntry) :
    s.HasAt j slot other ↔ other = stored slot entry := by
  have refines := (implements.settled j).1
  unfold System.HasAt
  rw [refines.log.find, refines.state.discarded, mem_storedThrough, found]
  by_cases retained : (s.replicas j).trimThrough < slot
  · simp [retained, Nat.not_le.mpr retained, eq_comm]
  · simp only [if_neg retained, reduceCtorEq, false_or]
    constructor
    · rintro ⟨-, slotEq, place, source, -, sourceFound, rfl⟩
      obtain rfl : place = slot := slotEq
      rw [found] at sourceFound
      cases sourceFound
      rfl
    · rintro rfl
      exact ⟨Nat.not_lt.mp retained, rfl, slot, entry, Nat.not_lt.mp retained, found, rfl⟩

theorem Implements.hasAt_iff_of_leads {careful : Prop} {a : Abstract n} {s : System n}
    (implements : Implements careful a s) {j : Fin n} {r slot : Nat} {entry : Entry Request}
    (leads : s.Leads j r) (found : entryAt (a.leaderLog r) slot = some entry)
    (other : LogEntry) : s.HasAt j slot other ↔ other = stored slot entry := by
  apply implements.hasAt_iff
  rw [(implements.settled j).1.log_eq_leaderLog implements.invariant leads.1, leads.2, found]

/-- What a leader has committed is chosen. -/
theorem Implements.chosen_of_leads {careful : Prop} {a : Abstract n} {s : System n}
    (implements : Implements careful a s) {j : Fin n} {r slot : Nat} (leads : s.Leads j r)
    (positive : 0 < slot) (committed : slot ≤ (s.replicas j).commitIndex) :
    ∃ q k entry, q ≤ r ∧ slot ≤ k ∧ Chosen a q k ∧
      entryAt (a.leaderLog q) slot = some entry ∧
      ∀ other, s.HasAt j slot other ↔ other = stored slot entry := by
  obtain ⟨q, k, entry, early, covered, chosen, found, -⟩ :=
    (implements.settled j).1.decided slot positive committed
  rw [leads.2] at early
  refine ⟨q, k, entry, early, covered, chosen, found, ?_⟩
  apply implements.hasAt_iff_of_leads leads
  apply entryAt_of_isPrefix (chosen.secured.isPrefix implements.invariant early
    (by simp [implements.leader leads]))
  rw [entryAt_take, if_pos covered, found]

/-- A slot that a leader of an earlier round has committed, in the log of the
later leader at a point where the committed slot need not be decided yet. -/
theorem entryAt_leaderLog_of_extends {a b : Abstract n} {q k slot r : Nat}
    {entry : Entry Request} (extension : Extends a b) (invariant : Invariant b)
    (led : a.leader r ≠ none) (earlier : q < r) (chosen : Chosen b q k) (covered : slot ≤ k)
    (found : entryAt (b.leaderLog q) slot = some entry) :
    entryAt (a.leaderLog r) slot = some entry := by
  have late : entryAt (b.leaderLog r) slot = some entry := by
    apply entryAt_of_isPrefix
      (chosen.secured.isPrefix invariant earlier.le (extension.leader_ne_none led))
    rw [entryAt_take, if_pos covered, found]
  obtain ⟨more, moreEq, moreRound⟩ := extension.leaderLog r led
  have early := invariant.logs.leaderLog_le q entry (mem_of_entryAt found)
  rcases Nat.lt_or_ge (a.leaderLog r).length slot with beyond | within
  · -- What the leader appended later has the round of the leader.
    have positive := (entryAt_bounds late).1
    rw [moreEq, entryAt_eq_getElem? positive, List.getElem?_append_right (by omega)] at late
    have := moreRound entry (List.mem_of_getElem? late)
    omega
  · rwa [moreEq, entryAt_append_of_le within] at late

/-- Leader completeness: what a leader of round `r` has committed is what every
leader of a later round has at that slot. -/
theorem leader_completeness {initialLeader : Fin n} {actions : List (Action n)} {t u : Nat}
    {first second : System n}
    (firstRun : (System.initial initialLeader).perform (actions.take t) = some first)
    (secondRun : (System.initial initialLeader).perform (actions.take u) = some second)
    {i j : Fin n} {r q slot : Nat} (firstLeads : first.Leads i r) (positive : 0 < slot)
    (committed : slot ≤ (first.replicas i).commitIndex) (secondLeads : second.Leads j q)
    (later : r < q) :
    ∃ entry, (∀ other, first.HasAt i slot other ↔ other = entry) ∧
      ∀ other, second.HasAt j slot other ↔ other = entry := by
  rcases Nat.le_total t u with le | le
  · obtain ⟨a, b, implementsA, implementsB, extension⟩ :=
      exists_implements_of_le le firstRun secondRun
    obtain ⟨p, k, entry, early, covered, chosen, found, has⟩ :=
      implementsA.chosen_of_leads firstLeads positive committed
    have logs := implementsA.invariant.logs
    refine ⟨stored slot entry, has, implementsB.hasAt_iff_of_leads secondLeads ?_⟩
    exact entryAt_leaderLog_of_extends (Extends.refl b) implementsB.invariant
      (by simp [implementsB.leader secondLeads]) (early.trans_lt later)
      (chosen.mono extension logs) covered (entryAt_leaderLog_mono extension logs found)
  · obtain ⟨a, b, implementsA, implementsB, extension⟩ :=
      exists_implements_of_le le secondRun firstRun
    obtain ⟨p, k, entry, early, covered, chosen, found, has⟩ :=
      implementsB.chosen_of_leads firstLeads positive committed
    refine ⟨stored slot entry, has, implementsA.hasAt_iff_of_leads secondLeads ?_⟩
    exact entryAt_leaderLog_of_extends extension implementsB.invariant
      (by simp [implementsA.leader secondLeads]) (early.trans_lt later) chosen covered found

theorem leader_completeness_failover : ∃ first second : System 3,
    (System.initial 0).perform (failover.take 4) = some first ∧
      (System.initial 0).perform (failover.take 7) = some second ∧
      first.Leads 0 0 ∧ second.Leads 1 1 ∧
      ∃ entry, (∀ other, first.HasAt 0 1 other ↔ other = entry) ∧
        ∀ other, second.HasAt 1 1 other ↔ other = entry := by
  have early : ((System.initial 0).perform (failover.take 4)).any
      (fun s => s.Leads 0 0 ∧ 1 ≤ (s.replicas 0).commitIndex) = true := by
    decide +kernel
  have late : ((System.initial 0).perform (failover.take 7)).any (fun s => s.Leads 1 1) = true := by
    decide +kernel
  obtain ⟨first, firstRun, firstFacts⟩ := (Option.any_eq_true _ _).mp early
  obtain ⟨second, secondRun, secondLeads⟩ := (Option.any_eq_true _ _).mp late
  obtain ⟨firstLeads, committed⟩ := of_decide_eq_true firstFacts
  have secondLeads := of_decide_eq_true secondLeads
  exact ⟨first, second, firstRun, secondRun, firstLeads, secondLeads,
    leader_completeness firstRun secondRun firstLeads (by decide) committed secondLeads
      (by decide)⟩

/-! ## State-machine safety -/

/-- The entries that replica `j` has executed at `slot`. -/
def Trace.executedAt (history : Trace n) (j : Fin n) (slot : Nat) : List LogEntry :=
  (history.executed j).filter fun entry => entry.slot = slot

theorem filter_storedThrough {log : List (Entry Request)} {count slot : Nat}
    {entry : Entry Request} (le : slot ≤ count) (found : entryAt log slot = some entry) :
    (storedThrough log count).filter (fun kept => kept.slot = slot) = [stored slot entry] := by
  induction count with
  | zero =>
      have := (entryAt_bounds found).1
      omega
  | succ count ih =>
      rw [storedThrough, List.filter_append]
      rcases Nat.lt_or_eq_of_le le with below | rfl
      · rw [ih (Nat.le_of_lt_succ below)]
        cases entryAt log (count + 1) with
        | none => rfl
        | some last => simp [stored, below.ne']
      · have nothing : (storedThrough log count).filter
            (fun kept => kept.slot = count + 1) = [] := by
          apply List.filter_eq_nil_iff.mpr
          intro kept member
          obtain ⟨slot, source, within, -, rfl⟩ := mem_storedThrough.mp member
          have different : slot ≠ count + 1 := by omega
          simp [stored, different]
        simp [nothing, found, stored]

/-- Leaders commit one entry at a slot. -/
theorem Implements.leaderCommitted_unique {careful : Prop} {a : Abstract n} {s : System n}
    (implements : Implements careful a s) {first second : LogEntry}
    (firstCommitted : s.history.LeaderCommitted first)
    (secondCommitted : s.history.LeaderCommitted second) (slotEq : first.slot = second.slot) :
    first = second := by
  obtain ⟨i, entries, happened, member⟩ := firstCommitted
  obtain ⟨j, others, otherHappened, otherMember⟩ := secondCommitted
  obtain ⟨q, k, source, covered, chosen, found, firstEq⟩ :=
    implements.happened i _ happened first member
  obtain ⟨p, m, other, otherCovered, otherChosen, otherFound, secondEq⟩ :=
    implements.happened j _ otherHappened second otherMember
  have same := chosen.entryAt_eq implements.invariant otherChosen covered (slotEq ▸ otherCovered)
  rw [found, slotEq, otherFound] at same
  cases same
  rw [firstEq, secondEq, slotEq]

/-- What a replica has executed at a slot that it has passed. -/
theorem Implements.executedAt_eq {careful : Prop} {a : Abstract n} {s : System n}
    (implements : Implements careful a s) {j : Fin n} {slot : Nat} (positive : 0 < slot)
    (applied : slot ≤ (s.replicas j).lastApplied) :
    ∃ entry, s.history.executedAt j slot = [entry] ∧ entry.slot = slot ∧
      entry ∈ s.history.executed j := by
  have refines := (implements.settled j).1
  obtain ⟨entry, found⟩ : ∃ entry, entryAt (a.log j) slot = some entry :=
    exists_entryAt positive (applied.trans (refines.log.applied.trans refines.log.committed))
  refine ⟨stored slot entry, ?_, rfl, ?_⟩
  · rw [Trace.executedAt, refines.state.executed]
    exact filter_storedThrough applied found
  · rw [refines.state.executed]
    exact mem_storedThrough.mpr ⟨slot, entry, applied, found, rfl⟩

theorem Implements.leaderCommitted_of_executed {a : Abstract n} {s : System n}
    (implements : Implements True a s) {j : Fin n} {entry : LogEntry}
    (executed : entry ∈ s.history.executed j) : s.history.LeaderCommitted entry := by
  obtain ⟨⟨i, event⟩, happened, isApplied⟩ := List.mem_filterMap.mp executed
  cases event with
  | applied other =>
      simp only at isApplied
      split at isApplied
      · cases isApplied
        exact implements.happened i _ happened trivial
      · contradiction
  | send target msg => contradiction
  | respond resp => contradiction
  | committed entries => contradiction
  | trimmed other => contradiction

/-- State-machine safety in the runs without overreach: replicas that have
passed a slot have executed one entry there, the same one, and it is the entry
that leaders have committed at the slot. -/
theorem state_machine_safety {initialLeader : Fin n} {actions : List (Action n)} {s : System n}
    (run : (System.initial initialLeader).perform actions = some s)
    (careful : Transition.Permitted System.step
      (fun state action => state.overreaches action = false)
      (System.initial initialLeader) actions)
    {i j : Fin n} {slot : Nat} (positive : 0 < slot)
    (firstApplied : slot ≤ (s.replicas i).lastApplied)
    (secondApplied : slot ≤ (s.replicas j).lastApplied) :
    ∃ entry, s.history.executedAt i slot = [entry] ∧ s.history.executedAt j slot = [entry] ∧
      ∀ other, other.slot = slot → (s.history.LeaderCommitted other ↔ other = entry) := by
  obtain ⟨a, implements, -⟩ : ∃ a, Implements True a s ∧ _ :=
    (implements_initial initialLeader).perform (by simpa using careful) run
  obtain ⟨first, firstEq, firstSlot, firstExecuted⟩ :=
    implements.executedAt_eq positive firstApplied
  obtain ⟨second, secondEq, secondSlot, secondExecuted⟩ :=
    implements.executedAt_eq positive secondApplied
  have firstCommitted := implements.leaderCommitted_of_executed firstExecuted
  have secondCommitted := implements.leaderCommitted_of_executed secondExecuted
  obtain rfl := implements.leaderCommitted_unique firstCommitted secondCommitted
    (firstSlot.trans secondSlot.symm)
  refine ⟨first, firstEq, secondEq, fun other otherSlot => ⟨?_, ?_⟩⟩
  · intro otherCommitted
    exact implements.leaderCommitted_unique otherCommitted firstCommitted
      (otherSlot.trans firstSlot.symm)
  · rintro rfl
    exact firstCommitted

/-- Replica 0 commits a write and tells replica 1 so. -/
def replication : List (Action 3) :=
  [.request 0 0 (writeOf 0), .flush 0 0, .deliver 0, .deliver 1, .heartbeat 0, .deliver 1]

theorem state_machine_safety_replication : ∃ s : System 3,
    (System.initial 0).perform replication = some s ∧
      1 ≤ (s.replicas 0).lastApplied ∧ 1 ≤ (s.replicas 1).lastApplied ∧
      ∃ entry, s.history.executedAt 0 1 = [entry] ∧ s.history.executedAt 1 1 = [entry] ∧
        ∀ other, other.slot = 1 → (s.history.LeaderCommitted other ↔ other = entry) := by
  have facts : ((System.initial 0).perform replication).any (fun s =>
      1 ≤ (s.replicas 0).lastApplied ∧ 1 ≤ (s.replicas 1).lastApplied) = true := by
    decide +kernel
  obtain ⟨s, run, applied⟩ := (Option.any_eq_true _ _).mp facts
  obtain ⟨first, second⟩ := of_decide_eq_true applied
  exact ⟨s, run, first, second,
    state_machine_safety run (by decide +kernel) (by decide) first second⟩

/-- Replica 0 logs 17 writes as leader of round 0 and only the first 16 reach
replica 1.  Replica 1 becomes leader of round 1, puts another write at slot 17,
commits it with replica 2 and is then deposed by it. -/
def rivalWrites : List (Action 3) :=
  [.deliver 0, .lose 0, .lose 0, .request 0 0 (writeOf 16), .flush 0 0, .lose 0, .lose 0,
    .electionTimeout 1,
    .lose 0, .deliver 0, .deliver 0, .lose 0, .deliver 0, .deliver 0, .deliver 0, .deliver 0,
    .request 1 0 (writeOf 17), .flush 1 0, .lose 0, .deliver 0, .deliver 0, .heartbeat 1, .lose 0,
    .deliver 0, .lose 0,
    .electionTimeout 2, .lose 0, .deliver 0, .deliver 0, .lose 1]

/-- A run that overreaches.  After the rival writes replica 2 sends 17 proposals
to replica 0 in round 2.  The refusals make it back off to slot 1, so its next
batch carries slots 1 to 16 only, together with the news that slot 17 is
decided. -/
def overreachingRun : List (Action 3) :=
  List.flatten
    [(List.range 16).map fun serial => .request 0 0 (writeOf serial),
      rivalWrites,
      (List.range 16).flatMap fun turn => [.heartbeat 2, .lose (turn + 2)],
      List.replicate 34 (.deliver 0),
      [.deliver 16]]

/-- Replicas 0 and 2 execute different entries at slot 17. -/
theorem overreachingRun_diverges : ∃ s : System 3,
    (System.initial 0).perform overreachingRun = some s ∧
      17 ≤ (s.replicas 0).lastApplied ∧ 17 ≤ (s.replicas 2).lastApplied ∧
      ∃ first second, s.history.executedAt 0 17 = [first] ∧
        s.history.executedAt 2 17 = [second] ∧ first.round ≠ second.round ∧
        first.req ≠ second.req := by
  have facts : ((System.initial 0).perform overreachingRun).any (fun s =>
      17 ≤ (s.replicas 0).lastApplied ∧ 17 ≤ (s.replicas 2).lastApplied ∧
        s.history.executedAt 0 17 = [⟨17, 0, writeOf 16⟩] ∧
        s.history.executedAt 2 17 = [⟨17, 1, writeOf 17⟩]) = true := by
    decide +kernel
  obtain ⟨s, run, applied⟩ := (Option.any_eq_true _ _).mp facts
  obtain ⟨first, second, firstEq, secondEq⟩ := of_decide_eq_true applied
  exact ⟨s, run, first, second, _, _, firstEq, secondEq, by decide, by decide⟩

end DoomDraft.Paxos
