import DoomDraft.Paxos.Responses

/-!
# Retained logs

What the logs of replicas look like between handlers, in every run: two logs
that have an entry of one round at one slot agree below it, each log fills the
slots from its trim point to its end, and what a replica has committed it never
replaces.
-/

namespace DoomDraft.Paxos

open Pancy Consensus

variable {n : Nat}

/-! ## Log matching -/

/-- The entries of a well-formed log have the rounds of their leaders in
order. -/
theorem round_le_of_slot_le {a : Abstract n} (logs : Logs a) {log : List (Entry Request)}
    (wellFormed : WellFormed a log) {slot later : Nat} {entry last : Entry Request}
    (le : slot ≤ later) (found : entryAt log slot = some entry)
    (lastFound : entryAt log later = some last) : entry.round ≤ last.round := by
  have isPrefix := (wellFormed later last lastFound).2
  have taken : entryAt (log.take later) slot = some entry := by
    rw [entryAt_take, if_pos le, found]
  exact logs.leaderLog_le last.round entry (mem_of_entryAt (entryAt_of_isPrefix isPrefix taken))

/-- Retained entries of one round at one slot have one history below them. -/
theorem Implements.entryAt_eq_of_round_eq {careful : Prop} {a : Abstract n} {s : System n}
    (implements : Implements careful a s) {i j : Fin n} {slot : Nat} {one other : LogEntry}
    (oneFound : (s.replicas i).log.find? slot = some one)
    (otherFound : (s.replicas j).log.find? slot = some other) (roundEq : one.round = other.round) :
    ∀ earlier ≤ slot, entryAt (a.log i) earlier = entryAt (a.log j) earlier := by
  have logs := implements.invariant.logs
  obtain ⟨-, oneEntry, oneAt, rfl⟩ := (implements.settled i).1.log.entryAt_of_find oneFound
  obtain ⟨-, otherEntry, otherAt, rfl⟩ := (implements.settled j).1.log.entryAt_of_find otherFound
  have same := (logs.log_wellFormed i).take_eq (logs.log_wellFormed j) oneAt otherAt roundEq
  exact fun earlier le => entryAt_eq_of_take_eq same le

/-- Log matching, in every run.  Replicas that retain an entry of one round at
one slot retain the same request there and the same entries at the slots below
that both retain, and the round that one remembers of its trim point is the
round that the other has there.  Along a log rounds do not decrease, and none
is beyond the round of the replica. -/
theorem log_matching {initialLeader : Fin n} {actions : List (Action n)} {s : System n}
    (run : (System.initial initialLeader).perform actions = some s) :
    (∀ i j slot one other, (s.replicas i).log.find? slot = some one →
      (s.replicas j).log.find? slot = some other → one.round = other.round →
      one.req = other.req ∧
      (∀ earlier < slot, ∀ below beneath, (s.replicas i).log.find? earlier = some below →
        (s.replicas j).log.find? earlier = some beneath →
        below.round = beneath.round ∧ below.req = beneath.req) ∧
      ∀ boundary, (s.replicas j).log.find? (s.replicas i).trimThrough = some boundary →
        (s.replicas i).trimRound = boundary.round) ∧
    ∀ j slot entry, (s.replicas j).log.find? slot = some entry →
      entry.round ≤ (s.replicas j).currentRound ∧
      ∀ later last, slot ≤ later → (s.replicas j).log.find? later = some last →
        entry.round ≤ last.round := by
  obtain ⟨a, implements⟩ := exists_implements run
  have logs := implements.invariant.logs
  refine ⟨?_, ?_⟩
  · intro i j slot one other oneFound otherFound roundEq
    have same := implements.entryAt_eq_of_round_eq oneFound otherFound roundEq
    have holdsI := (implements.settled i).1.log
    have holdsJ := (implements.settled j).1.log
    have agree : ∀ earlier ≤ slot, ∀ below beneath,
        (s.replicas i).log.find? earlier = some below →
        (s.replicas j).log.find? earlier = some beneath → below = beneath := by
      intro earlier le below beneath belowFound beneathFound
      obtain ⟨-, belowEntry, belowAt, rfl⟩ := holdsI.entryAt_of_find belowFound
      obtain ⟨-, beneathEntry, beneathAt, rfl⟩ := holdsJ.entryAt_of_find beneathFound
      rw [same earlier le, beneathAt] at belowAt
      cases belowAt
      rfl
    refine ⟨?_, ?_, ?_⟩
    · rw [agree slot le_rfl one other oneFound otherFound]
    · intro earlier lt below beneath belowFound beneathFound
      rw [agree earlier lt.le below beneath belowFound beneathFound]
      exact ⟨rfl, rfl⟩
    · intro boundary boundaryFound
      obtain ⟨above, -⟩ := holdsI.entryAt_of_find oneFound
      obtain ⟨-, entry, entryFound, rfl⟩ := holdsJ.entryAt_of_find boundaryFound
      rw [holdsI.trimRound (entryAt_bounds entryFound).1]
      exact roundAt_of_entryAt ((same _ above.le).trans entryFound)
  · intro j slot entry found
    have refines := (implements.settled j).1
    obtain ⟨-, source, sourceFound, rfl⟩ := refines.log.entryAt_of_find found
    refine ⟨?_, ?_⟩
    · rw [← refines.round]
      exact logs.log_le j source (mem_of_entryAt sourceFound)
    · intro later last le lastFound
      obtain ⟨-, lastSource, lastAt, rfl⟩ := refines.log.entryAt_of_find lastFound
      exact round_le_of_slot_le logs (logs.log_wellFormed j) le sourceFound lastAt

/-- Replica 0 logs two writes in one batch, which reaches replica 1. -/
def twoWrites : List (Action 3) :=
  [.request 0 0 (writeOf 0), .request 0 0 (writeOf 1), .flush 0 0, .deliver 0]

theorem log_matching_twoWrites : ∃ s : System 3, ∃ one other below beneath : LogEntry,
    (System.initial 0).perform twoWrites = some s ∧
      (s.replicas 0).log.find? 2 = some one ∧ (s.replicas 1).log.find? 2 = some other ∧
      (s.replicas 0).log.find? 1 = some below ∧ (s.replicas 1).log.find? 1 = some beneath ∧
      one.req = other.req ∧ below.round = beneath.round ∧ below.req = beneath.req ∧
      below.round ≤ one.round := by
  have facts : ((System.initial 0).perform twoWrites).any (fun s =>
      (s.replicas 0).log.find? 2 = some ⟨2, 0, writeOf 1⟩ ∧
        (s.replicas 1).log.find? 2 = some ⟨2, 0, writeOf 1⟩ ∧
        (s.replicas 0).log.find? 1 = some ⟨1, 0, writeOf 0⟩ ∧
        (s.replicas 1).log.find? 1 = some ⟨1, 0, writeOf 0⟩) = true := by
    decide +kernel
  obtain ⟨s, run, found⟩ := (Option.any_eq_true _ _).mp facts
  obtain ⟨one, other, below, beneath⟩ := of_decide_eq_true found
  obtain ⟨matching, ordered⟩ := log_matching run
  obtain ⟨reqEq, agree, -⟩ := matching 0 1 2 _ _ one other rfl
  obtain ⟨roundEq, belowEq⟩ := agree 1 (by decide) _ _ below beneath
  exact ⟨s, _, _, _, _, run, one, other, below, beneath, reqEq, roundEq, belowEq,
    (ordered 0 1 _ below).2 2 _ (by decide) one⟩

/-! ## The representation of a log -/

/-- The log of a replica between handlers: its keys are the slots from the trim
point to the end, each entry is at its own slot, everything committed has been
executed, and the trim round is that of the last entry erased. -/
structure LogShape (history : Trace n) (j : Fin n) (replica : Replica n) : Prop where
  keys : ∀ slot, (replica.log.find? slot).isSome ↔
    replica.trimThrough + 1 ≤ slot ∧ slot ≤ replica.nextSlot - 1
  slots : ∀ slot entry, replica.log.find? slot = some entry → entry.slot = slot
  trimmed : replica.trimThrough ≤ replica.lastApplied
  applied : replica.lastApplied = replica.commitIndex
  committed : replica.commitIndex ≤ replica.nextSlot - 1
  trimRound : 0 < replica.trimThrough → ∃ entry, (history.discarded j).getLast? = some entry ∧
    entry.slot = replica.trimThrough ∧ entry.round = replica.trimRound

/-- How a replica may have changed in the course of a run: its watermarks and
its round have not gone down, and of the slots that it had committed it has
kept the entries, except for those that it has trimmed since. -/
structure Advanced (early late : Replica n) : Prop where
  commit : early.commitIndex ≤ late.commitIndex
  applied : early.lastApplied ≤ late.lastApplied
  trimmed : early.trimThrough ≤ late.trimThrough
  round : early.currentRound ≤ late.currentRound
  kept : ∀ slot ≤ early.commitIndex,
    late.log.find? slot = if late.trimThrough < slot then early.log.find? slot else none

theorem HoldsLog.filled {self : Replica n} {log : List (Entry Request)} {index : Nat}
    (holds : HoldsLog self log) (le : index ≤ self.commitIndex) :
    ∀ slot, 0 < slot → slot ≤ index → ∃ entry, entryAt log slot = some entry :=
  fun _ positive within => exists_entryAt positive (within.trans (le.trans holds.committed))

theorem Settled.logShape {a : Abstract n} {history : Trace n} {j : Fin n} {self : Replica n}
    (settled : Settled j a history self) : LogShape history j self := by
  obtain ⟨refines, applied⟩ := settled
  have holds := refines.log
  have nextEq := holds.nextSlot
  refine ⟨?_, ?_, holds.trimmed, applied, ?_, ?_⟩
  · intro slot
    rw [holds.find]
    by_cases above : self.trimThrough < slot
    · rw [if_pos above, Option.isSome_map]
      constructor
      · intro present
        obtain ⟨entry, found⟩ := Option.isSome_iff_exists.mp present
        have := (entryAt_bounds found).2
        omega
      · intro within
        have inside : ∃ entry, entryAt (a.log j) slot = some entry :=
          exists_entryAt (by omega) (by omega)
        obtain ⟨entry, found⟩ := inside
        rw [found]
        rfl
    · rw [if_neg above]
      simp only [Option.isSome_none, Bool.false_eq_true, false_iff]
      omega
  · intro slot entry found
    obtain ⟨-, source, -, rfl⟩ := holds.entryAt_of_find found
    rfl
  · have := holds.committed
    omega
  · intro positive
    obtain ⟨below, trimEq⟩ := Nat.exists_eq_succ_of_ne_zero positive.ne'
    obtain ⟨entry, found⟩ := holds.filled (holds.trimmed.trans holds.applied) _ positive le_rfl
    refine ⟨stored self.trimThrough entry, ?_, rfl, ?_⟩
    · rw [refines.state.discarded]
      rw [trimEq] at found ⊢
      rw [storedThrough_succ found]
      exact List.getLast?_concat
    · rw [holds.trimRound positive]
      exact (roundAt_of_entryAt found).symm

/-- The entry at a slot in a list of stored entries. -/
theorem getElem?_storedThrough {log : List (Entry Request)} {count slot : Nat}
    (filled : ∀ slot, 0 < slot → slot ≤ count → ∃ entry, entryAt log slot = some entry)
    (positive : 0 < slot) (le : slot ≤ count) :
    (storedThrough log count)[slot - 1]? = (entryAt log slot).map (stored slot) := by
  have length := length_storedThrough filled
  obtain ⟨entry, found⟩ := filled slot positive le
  obtain ⟨kept, keptAt⟩ : ∃ kept, (storedThrough log count)[slot - 1]? = some kept :=
    ⟨_, List.getElem?_eq_getElem (by omega)⟩
  have slotEq : kept.slot = slot := by
    have := slot_of_storedThrough filled keptAt
    omega
  obtain ⟨place, source, -, sourceFound, rfl⟩ :=
    mem_storedThrough.mp (List.mem_of_getElem? keptAt)
  obtain rfl : place = slot := slotEq
  rw [keptAt, sourceFound]
  rfl

theorem executed_isPrefix {history later : Trace n} (grown : history <+: later) (j : Fin n) :
    history.executed j <+: later.executed j := by
  obtain ⟨more, rfl⟩ := grown
  rw [executed_append]
  exact List.prefix_append _ _

theorem discarded_isPrefix {history later : Trace n} (grown : history <+: later) (j : Fin n) :
    history.discarded j <+: later.discarded j := by
  obtain ⟨more, rfl⟩ := grown
  rw [discarded_append]
  exact List.prefix_append _ _

/-- The watermarks of a replica count the events of its trace. -/
theorem Refines.length_trace {a : Abstract n} {history : Trace n} {j : Fin n} {self : Replica n}
    (refines : Refines a history j self) :
    (history.executed j).length = self.lastApplied ∧
      (history.discarded j).length = self.trimThrough := by
  have holds := refines.log
  rw [refines.state.executed, refines.state.discarded]
  exact ⟨length_storedThrough (holds.filled holds.applied),
    length_storedThrough (holds.filled (holds.trimmed.trans holds.applied))⟩

/-- A replica that has gone on from `early` to `late` has advanced, because
what it has executed and discarded stays on its trace. -/
theorem Settled.advanced {a b : Abstract n} {history later : Trace n} {j : Fin n}
    {early late : Replica n} (first : Settled j a history early) (second : Settled j b later late)
    (grown : history <+: later) (extension : Extends a b) : Advanced early late := by
  obtain ⟨executedLength, discardedLength⟩ := first.1.length_trace
  obtain ⟨laterExecuted, laterDiscarded⟩ := second.1.length_trace
  have executes := executed_isPrefix grown j
  have trimmed : early.trimThrough ≤ late.trimThrough := by
    rw [← discardedLength, ← laterDiscarded]
    exact (discarded_isPrefix grown j).length_le
  have applied : early.lastApplied ≤ late.lastApplied := by
    rw [← executedLength, ← laterExecuted]
    exact executes.length_le
  have holdsEarly := first.1.log
  have holdsLate := second.1.log
  refine ⟨?_, applied, trimmed, ?_, ?_⟩
  · rw [← first.2, ← second.2]
    exact applied
  · rw [← first.1.round, ← second.1.round]
    exact extension.round j
  · intro slot le
    rw [← first.2] at le
    rw [holdsLate.find, holdsEarly.find]
    split
    · rename_i above
      rw [if_pos (trimmed.trans_lt above)]
      have positive := Nat.zero_lt_of_lt above
      have old := getElem?_storedThrough (holdsEarly.filled holdsEarly.applied) positive le
      have new := getElem?_storedThrough (holdsLate.filled holdsLate.applied) positive
        (le.trans applied)
      rw [← first.1.state.executed] at old
      rw [← second.1.state.executed] at new
      rw [← old, ← new]
      obtain ⟨more, moreEq⟩ := executes
      rw [← moreEq, List.getElem?_append_left (by omega)]
    · rfl

/-- In every run each replica keeps its log in shape between handlers, and from
any point of the run to any later one it only advances. -/
theorem log_representation {initialLeader : Fin n} {actions : List (Action n)} {t u : Nat}
    {early late : System n} (le : t ≤ u)
    (first : (System.initial initialLeader).perform (actions.take t) = some early)
    (second : (System.initial initialLeader).perform (actions.take u) = some late) (j : Fin n) :
    LogShape early.history j (early.replicas j) ∧
      Advanced (early.replicas j) (late.replicas j) := by
  obtain ⟨a, b, implementsA, implementsB, extension⟩ := exists_implements_of_le le first second
  obtain ⟨more, continued⟩ := Transition.exists_perform_of_take le first second
  refine ⟨(implementsA.settled j).logShape, ?_⟩
  exact (implementsA.settled j).advanced (implementsB.settled j)
    (System.history_isPrefix continued) extension

theorem log_representation_failover : ∃ early late : System 3,
    (System.initial 0).perform (failover.take 4) = some early ∧
      (System.initial 0).perform (failover.take 7) = some late ∧
      1 ≤ (early.replicas 0).commitIndex ∧
      LogShape early.history 0 (early.replicas 0) ∧
      Advanced (early.replicas 0) (late.replicas 0) := by
  have facts : ((System.initial 0).perform (failover.take 4)).any
      (fun s => 1 ≤ (s.replicas 0).commitIndex) = true := by
    decide +kernel
  have ends : ((System.initial 0).perform (failover.take 7)).isSome = true := by
    decide +kernel
  obtain ⟨early, first, committed⟩ := (Option.any_eq_true _ _).mp facts
  obtain ⟨late, second⟩ := Option.isSome_iff_exists.mp ends
  exact ⟨early, late, first, second, of_decide_eq_true committed,
    log_representation (by decide) first second 0⟩

end DoomDraft.Paxos
