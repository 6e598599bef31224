import DoomDraft.Paxos.Elections

/-!
# Replication

Specifications of `handle_propose` and `handle_ack`.  The entry loop of
`handle_propose` turns the log of a follower into the log that adopts the
batch, one entry at a time.
-/

namespace DoomDraft.Paxos

open Pancy Consensus

variable {n : Nat} {careful : Prop} {a : Abstract n} {history : Trace n} {j : Fin n}
  {self : Replica n}

/-! ## The entry loop -/

/-- The entry loop of `handle_propose` has adopted the first `count` entries of
`leaderLog`: it started from replica `first` with log `own` and has reached
`self` with log `current`. -/
structure Appending (leaderLog own : List (Entry Request)) (first replica : Replica n)
    (current : List (Entry Request)) (count : Nat) : Prop where
  frame : replica = { first with log := replica.log, nextSlot := replica.nextSlot }
  holds : HoldsLog replica current
  trimmed : replica.trimThrough ≤ count
  le : count ≤ leaderLog.length
  adopts : Adopts (leaderLog.take count) own current
  committed : ∀ slot ≤ replica.commitIndex, entryAt own slot = entryAt current slot

section EntryLoop

variable {leaderLog own current : List (Entry Request)} {first : Replica n} {count : Nat}
  {source : Entry Request}

theorem take_succ_of_entryAt (found : entryAt leaderLog (count + 1) = some source) :
    leaderLog.take (count + 1) = leaderLog.take count ++ [source] := by
  rw [List.take_add_one]
  change leaderLog[count]? = some source at found
  rw [found]
  rfl

/-- The next entry goes to the end of a log that equals the batch so far. -/
theorem Appending.ofPush
    (frame : self = { first with log := self.log, nextSlot := self.nextSlot })
    (holds : HoldsLog self (leaderLog.take count)) (trimmed : self.trimThrough ≤ count)
    (committed : ∀ slot ≤ self.commitIndex,
      entryAt own slot = entryAt (leaderLog.take count) slot)
    (lacks : ¬ leaderLog.take (count + 1) <+: own)
    (found : entryAt leaderLog (count + 1) = some source) :
    Appending leaderLog own first
      { self with
        log := self.log.emplace (count + 1) (stored (count + 1) source)
        nextSlot := max self.nextSlot (count + 1 + 1) }
      (leaderLog.take (count + 1)) (count + 1) := by
  have bound := (entryAt_bounds found).2
  have nextEq : self.nextSlot = count + 1 := by
    rw [holds.nextSlot, List.length_take_of_le (Nat.le_of_succ_le bound)]
  have takeEq := take_succ_of_entryAt found
  refine ⟨?_, ?_, trimmed.trans (Nat.le_succ count), bound, Or.inr ⟨lacks, rfl⟩, ?_⟩
  · exact congrArg (fun replica : Replica n =>
      { replica with
        log := self.log.emplace (count + 1) (stored (count + 1) source)
        nextSlot := max self.nextSlot (count + 1 + 1) }) frame
  · have pushed := holds.push source
    rw [← takeEq, nextEq] at pushed
    rw [nextEq, max_eq_right (Nat.le_succ _)]
    exact pushed
  · intro slot within
    rw [takeEq, entryAt_append_of_le (within.trans holds.committed)]
    exact committed slot within

/-- A slot beyond the log of a follower. -/
theorem Appending.appendMissing (appending : Appending leaderLog own first self current count)
    (found : entryAt leaderLog (count + 1) = some source)
    (missing : self.log.find? (count + 1) = none) :
    Appending leaderLog own first
      { self with
        log := self.log.emplace (count + 1) (stored (count + 1) source)
        nextSlot := max self.nextSlot (count + 1 + 1) }
      (leaderLog.take (count + 1)) (count + 1) := by
  have takeLength : (leaderLog.take count).length = count := List.length_take_of_le appending.le
  have short : current.length ≤ count := by
    by_contra longer
    obtain ⟨entry, entryFound⟩ : ∃ entry, entryAt current (count + 1) = some entry :=
      exists_entryAt (Nat.succ_pos count) (by omega)
    have kept := appending.holds.find_of_entryAt (Nat.lt_succ_of_le appending.trimmed) entryFound
    rw [missing] at kept
    contradiction
  have currentEq : current = leaderLog.take count :=
    (appending.adopts.batch_isPrefix.eq_of_length_le (short.trans takeLength.ge)).symm
  refine Appending.ofPush appending.frame (currentEq ▸ appending.holds) appending.trimmed
    (currentEq ▸ appending.committed) ?_ found
  intro held
  rcases appending.adopts with ⟨-, rfl⟩ | ⟨lacks, -⟩
  · have := held.length_le
    rw [List.length_take_of_le (entryAt_bounds found).2] at this
    omega
  · exact lacks ((List.take_prefix_take_left (Nat.le_succ count)).trans held)

/-- A slot that holds the entry of the batch already. -/
theorem Appending.keepPresent {entry : Entry Request}
    (appending : Appending leaderLog own first self current count)
    (ownWellFormed : WellFormed a own) (leaderWellFormed : WellFormed a leaderLog)
    (found : entryAt leaderLog (count + 1) = some source)
    (present : entryAt current (count + 1) = some entry)
    (sameRound : entry.round = source.round) :
    Appending leaderLog own first self current (count + 1) := by
  have takeLength : (leaderLog.take count).length = count := List.length_take_of_le appending.le
  obtain ⟨-, rfl⟩ := appending.adopts.eq_own_of_length
    (takeLength.trans_lt (entryAt_bounds present).2)
  have takeEq := ownWellFormed.take_eq leaderWellFormed present found sameRound
  refine { appending with
    trimmed := appending.trimmed.trans (Nat.le_succ count)
    le := (entryAt_bounds found).2
    adopts := Or.inl ⟨?_, rfl⟩ }
  rw [← takeEq]
  exact List.take_prefix _ _

/-- A slot above the commit index that holds another entry. -/
theorem Appending.replaceConflict {entry : Entry Request}
    (appending : Appending leaderLog own first self current count)
    (found : entryAt leaderLog (count + 1) = some source)
    (present : entryAt current (count + 1) = some entry)
    (otherRound : entry.round ≠ source.round) (uncommitted : self.commitIndex < count + 1) :
    Appending leaderLog own first
      { self with
        log := (self.log.eraseFrom (count + 1)).emplace (count + 1) (stored (count + 1) source)
        nextSlot := max (count + 1) (count + 1 + 1) }
      (leaderLog.take (count + 1)) (count + 1) := by
  have takeLength : (leaderLog.take count).length = count := List.length_take_of_le appending.le
  obtain ⟨held, rfl⟩ := appending.adopts.eq_own_of_length
    (takeLength.trans_lt (entryAt_bounds present).2)
  have takeEq : current.take count = leaderLog.take count := by
    rw [List.prefix_iff_eq_take, takeLength] at held
    exact held.symm
  have cut := appending.holds.cut uncommitted (entryAt_bounds present).2
  rw [Nat.add_sub_cancel, takeEq] at cut
  have lacks : ¬ leaderLog.take (count + 1) <+: current := by
    intro longer
    have same : entryAt current (count + 1) = some source := by
      apply entryAt_of_isPrefix longer
      rw [entryAt_take, if_pos le_rfl, found]
    rw [present] at same
    cases same
    exact otherRound rfl
  refine Appending.ofPush (congrArg (fun replica : Replica n =>
    { replica with log := self.log.eraseFrom (count + 1), nextSlot := count + 1 })
      appending.frame) cut appending.trimmed ?_ lacks found
  intro slot within
  rw [← takeEq, entryAt_take, if_pos (within.trans (Nat.le_of_lt_succ uncommitted))]

theorem IsBatch.tail {entry : LogEntry} {rest : List LogEntry}
    (batch : IsBatch leaderLog count (entry :: rest)) : IsBatch leaderLog (count + 1) rest := by
  intro i other found
  obtain ⟨source, sourceFound, otherEq⟩ := batch (i + 1) other found
  rw [show count + (i + 1 + 1) = count + 1 + (i + 1) by omega] at sourceFound otherEq
  exact ⟨source, sourceFound, otherEq⟩

/-- The entry behind the first `reached` ones of the batch conflicts with a slot that the
follower has committed. -/
def Conflict (leaderLog own : List (Entry Request)) (first : Replica n) (reached : Nat) : Prop :=
  ∃ held source, entryAt own (reached + 1) = some held ∧
    entryAt leaderLog (reached + 1) = some source ∧ held.round ≠ source.round ∧
    reached + 1 ≤ first.commitIndex

/-- The entry loop adopts the whole batch or refuses without changing the log. -/
theorem appendEntries_spec {entries : List LogEntry}
    (appending : Appending leaderLog own first self current count)
    (ownWellFormed : WellFormed a own) (leaderWellFormed : WellFormed a leaderLog)
    (batch : IsBatch leaderLog count entries) :
    (∃ final next, self.appendEntries count entries = .done final (count + entries.length) ∧
      Appending leaderLog own first final next (count + entries.length)) ∨
    ∃ final slot reached, self.appendEntries count entries = .refused final slot ∧
      Appending leaderLog own first final own reached ∧
      Conflict leaderLog own first reached := by
  induction entries generalizing self current count with
  | nil => exact Or.inl ⟨self, current, rfl, appending⟩
  | cons entry rest ih =>
      obtain ⟨source, found, rfl⟩ := batch 0 entry rfl
      rw [Nat.zero_add] at found
      have retained : ¬ count + 1 ≤ self.trimThrough := by
        have := appending.trimmed
        omega
      have lengthEq : count + (rest.length + 1) = count + 1 + rest.length := by omega
      simp only [Replica.appendEntries, stored, List.length_cons, Nat.zero_add,
        if_neg retained, lengthEq]
      cases kept : self.log.find? (count + 1) with
      | none =>
          simp only [Replica.refuses, Replica.dropConflict, OrderedMap.contains, kept,
            Option.isSome_none, Bool.false_eq_true, if_false]
          exact ih (appending.appendMissing found kept) batch.tail
      | some present =>
          obtain ⟨-, held, heldFound, rfl⟩ := appending.holds.entryAt_of_find kept
          by_cases sameRound : held.round = source.round
          · simp only [Replica.refuses, Replica.dropConflict, OrderedMap.contains, kept, stored,
              sameRound, ne_eq, not_true_eq_false, false_and, decide_false, Bool.false_eq_true,
              if_false, Option.isSome_some, if_true]
            exact ih (appending.keepPresent ownWellFormed leaderWellFormed found heldFound
              sameRound) batch.tail
          · by_cases uncommitted : self.commitIndex < count + 1
            · have erased : (self.log.eraseFrom (count + 1)).find? (count + 1) = none := by
                rw [OrderedMap.find?_eraseFrom, if_neg (lt_irrefl _)]
              simp only [Replica.refuses, Replica.dropConflict, OrderedMap.contains, kept, stored,
                sameRound, ne_eq, not_false_eq_true, true_and, Nat.not_le.mpr uncommitted,
                decide_false, Bool.false_eq_true, if_false, if_true, erased, Option.isSome_none]
              exact ih (appending.replaceConflict found heldFound sameRound uncommitted)
                batch.tail
            · -- The slot is committed, so nothing before it was replaced either.
              have takeLength : (leaderLog.take count).length = count :=
                List.length_take_of_le appending.le
              obtain ⟨-, rfl⟩ := appending.adopts.eq_own_of_length
                (takeLength.trans_lt (entryAt_bounds heldFound).2)
              simp only [Replica.refuses, kept, stored, sameRound, ne_eq, not_false_eq_true,
                true_and, Nat.not_lt.mp uncommitted, decide_true, if_true]
              have commitEq : self.commitIndex = first.commitIndex := by
                rw [appending.frame]
              exact Or.inr ⟨self, count + 1, count, rfl, appending, held, source, heldFound,
                found, sameRound, commitEq ▸ Nat.not_lt.mp uncommitted⟩

end EntryLoop

/-! ## Proposals -/

/-- The proposal is accepted and raises the commit index beyond both its old
value and the entries that the proposal vouches for: every entry of the batch
is present, and `last_log_index` counts slots behind the batch that nobody has
compared with the leader's log. -/
def Replica.overreaches (self : Replica n) (msg : ProposeMessage n) : Bool :=
  self.currentRound ≤ msg.round ∧
    self.prefixMatches msg.prevLogIndex msg.prevLogRound = true ∧
    (∀ entry ∈ msg.entries, (self.log.find? entry.slot).map LogEntry.round = some entry.round) ∧
    max self.commitIndex (msg.prevLogIndex + msg.entries.length) <
      min msg.decideThrough self.lastLogIndex

/-- A follower raises its commit index to a decided slot of its log. -/
theorem Refines.withCommitIndex (refines : Refines a history j self) {index : Nat}
    (le : self.commitIndex ≤ index) (within : index ≤ self.lastLogIndex)
    (decided : DecidedThrough a history self.currentRound index) :
    Refines a history j { self with commitIndex := index } :=
  { refines with
    log := { refines.log with
      applied := refines.log.applied.trans le
      committed := within.trans refines.log.lastLogIndex.le }
    state := { refines.state with }
    decided := decided }

/-- Trim as far as the leader has, but not beyond what has been executed. -/
theorem followTrim_spec (invariant : Invariant a) (settled : Settled j a history self)
    (goal : Nat) :
    Achieves careful a history j
      (if self.trimThrough < goal then
        Replica.trimLogPrefix { self with trimThrough := min goal self.lastApplied }
      else (self, []))
      fun b later after => Settled j b later after ∧ Steady self after := by
  obtain ⟨refines, applied⟩ := settled
  split
  · rename_i raised
    have trims := @trimLogPrefix_spec n careful a history j
      { self with trimThrough := min goal self.lastApplied } self.trimThrough invariant refines
      (le_min raised.le refines.log.trimmed) (min_le_right _ _)
    refine trims.imp ?_
    intro b later after ⟨refinesB, steady, appliedEq⟩
    refine ⟨⟨refinesB, ?_⟩, ⟨steady.role, steady.round, steady.commit⟩⟩
    rw [appliedEq, steady.commit]
    exact applied
  · exact Achieves.pure ⟨⟨refines, applied⟩, Steady.refl self⟩

theorem acceptBatch_spec (invariant : Invariant a) (settled : Settled j a history self)
    {msg : ProposeMessage n} {count : Nat} (acked : count ≤ a.acked j self.currentRound)
    (decided : DecidedThrough a history self.currentRound msg.decideThrough)
    (vouched : careful → Vouched a history j self.commitIndex
      (min msg.decideThrough self.lastLogIndex)) :
    Achieves careful a history j (self.acceptBatch msg count) (Settled j) := by
  obtain ⟨refines, applied⟩ := settled
  have within : self.commitIndex ≤ self.lastLogIndex := by
    rw [refines.log.lastLogIndex]
    exact refines.log.committed
  set raised : Replica n := if self.commitIndex < msg.decideThrough then
      { self with commitIndex := min msg.decideThrough self.lastLogIndex } else self with raisedEq
  have refinesRaised : Refines a history j raised ∧ raised.currentRound = self.currentRound ∧
      (careful → Vouched a history j raised.lastApplied raised.commitIndex) := by
    rw [raisedEq]
    split
    · rename_i behind
      refine ⟨refines.withCommitIndex (le_min behind.le within) (min_le_right _ _) ?_, rfl, ?_⟩
      · exact fun slot positive le => decided slot positive (le.trans (min_le_left _ _))
      · intro care
        exact applied ▸ vouched care
    · exact ⟨refines, rfl, fun _ slot above le => by omega⟩
  obtain ⟨refinesB, roundEq, vouchedB⟩ := refinesRaised
  unfold Replica.acceptBatch
  rw [← raisedEq, Outcome.andThen_assoc]
  refine (applyCommittedEntries_spec invariant refinesB vouchedB).andThen invariant ?_
  intro c later invariantC extendsC ⟨refinesC, steadyC, appliedC⟩
  refine (followTrim_spec invariantC ⟨refinesC, appliedC⟩ msg.trimThrough).andThen invariantC ?_
  intro d final invariantD extendsD ⟨settledD, steadyD⟩
  refine settledD.emit invariantD ?_
  intro _
  refine ⟨?_, rfl⟩
  dsimp only
  rw [settledD.1.index, steadyD.round, steadyC.round, roundEq]
  exact acked.trans ((extendsC.acked j _).trans (extendsD.acked j _))

/-- A matching previous slot means that the logs agree up to it. -/
theorem Refines.take_eq_of_prefixMatches (invariant : Invariant a)
    (refines : Refines a history j self) {round prev prevRound : Nat}
    (le : prev ≤ (a.leaderLog round).length)
    (prevRoundEq : prevRound = Consensus.roundAt (a.leaderLog round) prev)
    (matching : self.prefixMatches prev prevRound = true) :
    self.trimThrough ≤ prev ∧ (a.log j).take prev = (a.leaderLog round).take prev := by
  have holds := refines.log
  unfold Replica.prefixMatches at matching
  split at matching
  · rename_i atStart
    subst atStart
    exact ⟨(of_decide_eq_true matching).le, by simp⟩
  · rename_i notStart
    obtain ⟨source, sourceFound⟩ := exists_entryAt (Nat.pos_of_ne_zero notStart) le
    rw [roundAt_of_entryAt sourceFound] at prevRoundEq
    have agree : ∀ entry, entryAt (a.log j) prev = some entry → entry.round = prevRound →
        (a.log j).take prev = (a.leaderLog round).take prev := fun entry found roundEq =>
      (invariant.logs.log_wellFormed j).take_eq (invariant.logs.leaderLog_wellFormed round)
        found sourceFound (roundEq.trans prevRoundEq)
    split at matching
    · contradiction
    · split at matching
      · rename_i atTrim
        have bound : prev ≤ (a.log j).length := by
          rw [atTrim]
          exact holds.trimmed.trans (holds.applied.trans holds.committed)
        obtain ⟨entry, found⟩ := exists_entryAt (Nat.pos_of_ne_zero notStart) bound
        refine ⟨atTrim.ge, agree entry found ?_⟩
        rw [of_decide_eq_true matching, holds.trimRound (by omega), ← atTrim,
          roundAt_of_entryAt found]
      · split at matching
        · rename_i kept keptFound
          obtain ⟨above, entry, found, rfl⟩ := holds.entryAt_of_find keptFound
          exact ⟨above.le, agree entry found (of_decide_eq_true matching)⟩
        · contradiction

/-- Where every slot of the batch was there before, raising the commit index
behind the batch overreaches. -/
theorem Replica.overreaches_of_isPrefix {leaderLog own : List (Entry Request)}
    {msg : ProposeMessage n} (holds : HoldsLog self own)
    (trimmed : self.trimThrough ≤ msg.prevLogIndex)
    (batch : IsBatch leaderLog msg.prevLogIndex msg.entries)
    (held : leaderLog.take (msg.prevLogIndex + msg.entries.length) <+: own)
    (current : self.currentRound ≤ msg.round)
    (matching : self.prefixMatches msg.prevLogIndex msg.prevLogRound = true)
    (beyond : max self.commitIndex (msg.prevLogIndex + msg.entries.length) <
      min msg.decideThrough self.lastLogIndex) : self.overreaches msg = true := by
  refine decide_eq_true ⟨current, matching, ?_, beyond⟩
  intro entry member
  obtain ⟨i, below, atIndex⟩ := List.mem_iff_getElem.mp member
  obtain ⟨source, found, rfl⟩ := batch i entry (List.getElem?_eq_some_iff.mpr ⟨below, atIndex⟩)
  have ownFound : entryAt own (msg.prevLogIndex + (i + 1)) = some source := by
    apply entryAt_of_isPrefix held
    rw [entryAt_take, if_pos (by omega), found]
  have above : self.trimThrough < msg.prevLogIndex + (i + 1) := by omega
  rw [show (stored (msg.prevLogIndex + (i + 1)) source).slot = msg.prevLogIndex + (i + 1) from rfl,
    holds.find_of_entryAt above ownFound]
  rfl

/-- The part of `handle_propose` behind the check of the previous slot. -/
theorem appendBatch_spec (invariant : Invariant a) (settled : Settled j a history self)
    (follower : self.role = .follower) {msg : ProposeMessage n}
    (sound : SoundMessage a history j (.propose msg)) (roundEq : self.currentRound = msg.round)
    (matching : self.prefixMatches msg.prevLogIndex msg.prevLogRound = true)
    (care : careful → self.overreaches msg = false) :
    Achieves careful a history j
      (match self.appendEntries msg.prevLogIndex msg.entries with
      | .refused self slot =>
          (self, [.send msg.leader (.ack ⟨self.currentRound, self.index, false,
            self.lastLogIndex, slot⟩)])
      | .done self matchIndex => self.acceptBatch msg matchIndex) (Settled j) := by
  obtain ⟨other, leads, prevLe, prevRound, decided, batch⟩ := sound
  obtain ⟨refines, applied⟩ := settled
  obtain ⟨trimmed, takeEq⟩ := refines.take_eq_of_prefixMatches invariant prevLe prevRound matching
  have start : Appending (a.leaderLog msg.round) (a.log j) self self (a.log j)
      msg.prevLogIndex := by
    refine ⟨rfl, refines.log, trimmed, prevLe, Or.inl ⟨?_, rfl⟩, fun _ _ => rfl⟩
    rw [← takeEq]
    exact List.take_prefix _ _
  rcases appendEntries_spec start (invariant.logs.log_wellFormed j)
      (invariant.logs.leaderLog_wellFormed _) batch with
    ⟨final, next, result, appended⟩ | ⟨final, slot, reached, result, appended, -⟩
  · rw [result]
    have frame := appended.frame
    have adopts := appended.adopts
    have holds := appended.holds
    have committed := appended.committed
    rw [frame] at holds committed
    obtain ⟨b, steps, leaderEq, leaderLogEq, logEq, acked, refinesB⟩ :=
      refines.adopt invariant follower (roundEq ▸ leads) other (roundEq ▸ appended.le)
        (roundEq ▸ adopts) holds committed
    obtain ⟨invariantB, extendsB⟩ := invariant.steps steps
    refine Achieves.after steps ?_
    rw [frame]
    have decidedB := decided.grow extendsB invariant.logs le_rfl
    refine acceptBatch_spec invariantB ⟨refinesB, applied⟩ acked ?_ ?_
    · exact roundEq ▸ decidedB
    · intro carefully slot above le
      have covered : slot ≤ msg.prevLogIndex + msg.entries.length := by
        by_contra behind
        have lastEq := holds.lastLogIndex
        rcases adopts with ⟨held, nextEq⟩ | ⟨-, nextEq⟩
        · rw [nextEq, ← refines.log.lastLogIndex] at lastEq
          rw [lastEq] at le
          have overreaches := Replica.overreaches_of_isPrefix refines.log trimmed batch held
            roundEq.le matching ((max_lt above (Nat.not_le.mp behind)).trans_le le)
          rw [care carefully] at overreaches
          contradiction
        · rw [nextEq, List.length_take_of_le appended.le] at lastEq
          omega
      obtain ⟨entry, found, leaderCommitted⟩ := decidedB.entryAt_leaderLog invariantB
        (by simp [leaderEq, leads]) (Nat.zero_lt_of_lt above) (le.trans (min_le_left _ _))
      refine ⟨entry, ?_, leaderCommitted⟩
      rw [logEq]
      apply entryAt_of_isPrefix adopts.batch_isPrefix
      rw [entryAt_take, if_pos covered, ← leaderLogEq, found]
  · rw [result]
    have settledF : Settled j a history final := by
      have holds := appended.holds
      rw [appended.frame] at holds ⊢
      refine ⟨{ refines with
        log := holds
        state := { refines.state with }
        next := ?_ }, applied⟩
      simp [follower]
    exact settledF.emit invariant (by simp [SoundMessage])

theorem Replica.overreaches_becomeFollower (hint : Fin n) {msg : ProposeMessage n}
    (le : self.currentRound ≤ msg.round) :
    (self.becomeFollower msg.round hint).overreaches msg = self.overreaches msg := by
  unfold Replica.becomeFollower
  split <;> simp [Replica.overreaches, Replica.prefixMatches, Replica.lastLogIndex, le]

theorem handlePropose_spec (invariant : Invariant a) (settled : Settled j a history self)
    {msg : ProposeMessage n} (sound : SoundMessage a history j (.propose msg))
    (care : careful → self.overreaches msg = false) :
    Achieves careful a history j (self.handlePropose msg) (Settled j) := by
  unfold Replica.handlePropose
  split
  · exact settled.emit invariant (by simp [SoundMessage])
  · rename_i current
    have le : self.currentRound ≤ msg.round := Nat.not_lt.mp current
    have notLeader : a.leader msg.round ≠ some j := by
      rw [sound.2.1]
      simpa using sound.1
    obtain ⟨b, steps, leaderEq, leaderLogEq, -, -, settledB⟩ :=
      settled.becomeFollower invariant msg.leader le notLeader
    obtain ⟨invariantB, extendsB⟩ := invariant.steps steps
    have soundB : SoundMessage b history j (.propose msg) := by
      have grown : SoundMessage b (history ++ []) j (.propose msg) :=
        sound.mono extendsB invariant.logs
      rwa [List.append_nil] at grown
    refine Achieves.after steps ?_
    dsimp only
    split
    · exact settledB.emit invariantB (by simp [SoundMessage])
    · rename_i matching
      refine appendBatch_spec invariantB settledB rfl soundB
        (Replica.becomeFollower_currentRound _ le) (by simpa using matching) ?_
      intro carefully
      rw [Replica.overreaches_becomeFollower _ le]
      exact care carefully

/-! ## Acknowledgements -/

/-- A leader learns what a peer has acknowledged. -/
theorem Presiding.advance (invariant : Invariant a) (presiding : Presiding j a history self)
    {peer : Fin n} {matched : Nat} (acked : matched ≤ a.acked peer self.currentRound) :
    Presiding j a history
      { self with
        matchIndex := Function.update self.matchIndex peer (max (self.matchIndex peer) matched)
        nextIndex := Function.update self.nextIndex peer
          (max (self.nextIndex peer) (matched + 1)) } := by
  obtain ⟨⟨refines, applied⟩, leader⟩ := presiding
  obtain ⟨positive, le⟩ := refines.next leader peer
  have bound : matched ≤ self.lastLogIndex := by
    rw [refines.log.lastLogIndex, refines.log_eq_leaderLog invariant leader]
    exact acked.trans (invariant.logs.acked_le _ _)
  have moved := refines.withNextIndex peer (lt_max_of_lt_left positive)
    (max_le le (Nat.succ_le_succ bound))
  refine ⟨⟨{ moved with
    log := { moved.log with }
    state := { moved.state with }
    matched := ?_ }, applied⟩, leader⟩
  intro _ v
  by_cases same : v = peer
  · subst same
    simpa using ⟨refines.matched leader v, acked⟩
  · simpa [same] using refines.matched leader v

theorem advancePeer_spec (invariant : Invariant a) (presiding : Presiding j a history self)
    {msg : AckMessage n} (acked : msg.matchIndex ≤ a.acked msg.server self.currentRound)
    (nextEq : msg.nextIndex = msg.matchIndex + 1) :
    Achieves careful a history j (self.advancePeer msg) (Settled j) := by
  unfold Replica.advancePeer
  rw [nextEq]
  refine (commitAndExecute_spec invariant (presiding.advance invariant acked)).andThen
    invariant ?_
  intro b later invariantB _ presidingB
  split
  · exact (sendProposeTo_spec invariantB presidingB _).imp fun _ _ _ presidingC => presidingC.1
  · exact Achieves.pure presidingB.1

theorem backOffPeer_spec (invariant : Invariant a) (presiding : Presiding j a history self)
    (msg : AckMessage n) :
    Achieves careful a history j (self.backOffPeer msg) (Settled j) := by
  obtain ⟨⟨refines, applied⟩, leader⟩ := presiding
  obtain ⟨positive, le⟩ := refines.next leader msg.server
  have trimmed : self.trimThrough ≤ self.lastLogIndex := by
    rw [refines.log.lastLogIndex]
    exact refines.log.trimmed.trans (refines.log.applied.trans refines.log.committed)
  unfold Replica.backOffPeer
  dsimp only
  generalize fallbackEq : (if self.nextIndex msg.server ≤ _ then _ else _) = fallback
  have below : fallback ≤ self.lastLogIndex + 1 := by
    rw [← fallbackEq]
    split_ifs <;> omega
  have moved := refines.withNextIndex msg.server
    (lt_max_of_lt_right (Nat.succ_pos _)) (max_le below (Nat.succ_le_succ trimmed))
  exact (sendProposeTo_spec invariant ⟨⟨moved, applied⟩, leader⟩ _).imp
    fun _ _ _ presidingB => presidingB.1

theorem handleAck_spec (invariant : Invariant a) (settled : Settled j a history self)
    {msg : AckMessage n} (sound : SoundMessage a history j (.ack msg)) :
    Achieves careful a history j (self.handleAck msg) (Settled j) := by
  unfold Replica.handleAck
  split
  · rename_i later
    obtain ⟨b, steps, -, -, -, -, settledB⟩ := settled.becomeFollower invariant
      self.leaderIndex later.le (settled.1.not_leads_later invariant.ballots later)
    exact Achieves.after steps (Achieves.pure settledB)
  · split
    · exact Achieves.pure settled
    · rename_i relevant
      simp only [not_or, not_not] at relevant
      obtain ⟨leader, roundEq⟩ := relevant
      split
      · rename_i success
        obtain ⟨acked, nextEq⟩ := sound success
        exact advancePeer_spec invariant ⟨settled, leader⟩ (roundEq ▸ acked) nextEq
      · exact backOffPeer_spec invariant ⟨settled, leader⟩ msg

end DoomDraft.Paxos
