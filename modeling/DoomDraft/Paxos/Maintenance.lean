import DoomDraft.Paxos.Refinement

/-!
# Log maintenance

Specifications of the functions that trim a log, execute committed entries and
advance the commit index.  None of them takes an abstract step.
-/

namespace DoomDraft.Paxos

open Pancy Consensus

variable {n : Nat}

/-! ## Reading a retained log -/

namespace HoldsLog

variable {self : Replica n} {log : List (Entry Request)}

theorem lastLogIndex (holds : HoldsLog self log) : self.lastLogIndex = log.length := by
  simp [Replica.lastLogIndex, holds.nextSlot]

/-- `round_at` is right from the trim point on. -/
theorem roundAt (holds : HoldsLog self log) {slot : Nat} (le : self.trimThrough ≤ slot) :
    self.roundAt slot = Consensus.roundAt log slot := by
  unfold Replica.roundAt
  split
  · subst slot
    rfl
  · split
    · rename_i positive atTrim
      subst slot
      exact holds.trimRound (Nat.pos_of_ne_zero positive)
    · rename_i _ notTrim
      have above : self.trimThrough < slot := by omega
      rw [holds.find, if_pos above, Consensus.roundAt]
      cases entryAt log slot <;> rfl

theorem lastLogRound (holds : HoldsLog self log) : self.lastLogRound = lastRound log := by
  unfold Replica.lastLogRound lastRound
  rw [holds.lastLogIndex, holds.roundAt]
  exact holds.trimmed.trans (holds.applied.trans holds.committed)

theorem find_of_entryAt (holds : HoldsLog self log) {slot : Nat} {entry : Entry Request}
    (above : self.trimThrough < slot) (found : entryAt log slot = some entry) :
    self.log.find? slot = some (stored slot entry) := by
  rw [holds.find, if_pos above, found]
  rfl

theorem entryAt_of_find (holds : HoldsLog self log) {slot : Nat} {kept : LogEntry}
    (found : self.log.find? slot = some kept) :
    self.trimThrough < slot ∧ ∃ entry, entryAt log slot = some entry ∧
      kept = stored slot entry := by
  rw [holds.find] at found
  split at found
  · obtain ⟨entry, entryFound, rfl⟩ := Option.map_eq_some_iff.mp found
    exact ⟨‹_›, entry, entryFound, rfl⟩
  · contradiction

/-- `prefix_matches` accepts the round that the log has, from the trim point on. -/
theorem prefixMatches (holds : HoldsLog self log) {slot : Nat} (le : self.trimThrough ≤ slot)
    (within : slot ≤ log.length) :
    self.prefixMatches slot (Consensus.roundAt log slot) = true := by
  unfold Replica.prefixMatches
  split
  · subst slot
    exact decide_eq_true (Nat.le_zero.mp le)
  · rename_i positive
    rw [if_neg (Nat.not_lt.mpr le)]
    split
    · rename_i atTrim
      subst slot
      exact decide_eq_true (holds.trimRound (Nat.pos_of_ne_zero positive)).symm
    · rename_i notTrim
      obtain ⟨entry, found⟩ := exists_entryAt (Nat.pos_of_ne_zero positive) within
      rw [holds.find_of_entryAt (by omega) found]
      exact decide_eq_true (roundAt_of_entryAt found).symm

end HoldsLog

theorem storedThrough_succ {log : List (Entry Request)} {slot : Nat} {entry : Entry Request}
    (found : entryAt log (slot + 1) = some entry) :
    storedThrough log (slot + 1) = storedThrough log slot ++ [stored (slot + 1) entry] := by
  simp [storedThrough, found]

/-- What log maintenance leaves alone. -/
structure Steady (before after : Replica n) : Prop where
  role : after.role = before.role
  round : after.currentRound = before.currentRound
  commit : after.commitIndex = before.commitIndex

theorem Steady.refl (self : Replica n) : Steady self self :=
  ⟨rfl, rfl, rfl⟩

theorem Steady.trans {first second third : Replica n} (early : Steady first second)
    (late : Steady second third) : Steady first third :=
  ⟨late.role.trans early.role, late.round.trans early.round, late.commit.trans early.commit⟩

section Specifications

variable {careful : Prop} {a : Abstract n} {history : Trace n} {j : Fin n} {self : Replica n}

/-! ## Trimming -/

/-- One turn of the trim loop moves the trimmed part of the log up by a slot. -/
theorem Refines.trimFirst {low slot : Nat} {entry : LogEntry} (logs : Logs a)
    (refines : Refines a history j { self with trimThrough := low })
    (first : self.log.first? = some (slot, entry)) (within : slot ≤ self.trimThrough)
    (applied : self.trimThrough ≤ self.lastApplied) :
    slot = low + 1 ∧ Refines a (history ++ tagged j [.trimmed entry]) j
      { self with trimThrough := low + 1, trimRound := entry.round,
                  log := self.log.eraseFirst } := by
  have holds := refines.log
  obtain ⟨above, source, found, rfl⟩ := holds.entryAt_of_find (OrderedMap.find?_of_first? first)
  replace above : low < slot := above
  obtain ⟨next, nextFound⟩ : ∃ next, entryAt (a.log j) (low + 1) = some next :=
    exists_entryAt (by omega) (above.trans_le (entryAt_bounds found).2)
  have slotEq : slot = low + 1 := by
    have lower := OrderedMap.first?_le first
      (holds.find_of_entryAt (Nat.lt_succ_self low) nextFound)
    omega
  subst slotEq
  refine ⟨rfl, ?_⟩
  have state := refines.state
  refine { refines with
    log := { holds with
      find := ?_, trimRound := ?_, trimmed := within.trans applied }
    state := ⟨?_, ?_, state.replayed⟩
    decided := refines.decided.mono (Extends.refl a) logs le_rfl }
  · intro other
    have old := holds.find other
    simp only at old ⊢
    rw [OrderedMap.find?_eraseFirst first, old]
    split_ifs <;> first | rfl | omega
  · intro _
    exact (roundAt_of_entryAt found).symm
  · rw [executed_append]
    exact (List.append_nil _).trans state.executed
  · have discardedEq : history.discarded j = storedThrough (a.log j) low := state.discarded
    rw [discarded_append, discardedEq, storedThrough_succ found]
    simp [Trace.discarded, tagged]

/-- At the end of the trim loop every slot up to the trim point is gone. -/
theorem Refines.trimDone {low : Nat}
    (refines : Refines a history j { self with trimThrough := low })
    (done : ∀ slot entry, self.log.first? = some (slot, entry) → self.trimThrough < slot)
    (le : low ≤ self.trimThrough) (applied : self.trimThrough ≤ self.lastApplied) :
    low = self.trimThrough := by
  by_contra different
  have holds := refines.log
  have bound : low + 1 ≤ (a.log j).length := by
    have within : self.lastApplied ≤ (a.log j).length := holds.applied.trans holds.committed
    omega
  obtain ⟨next, nextFound⟩ := exists_entryAt (Nat.succ_pos low) bound
  have found : self.log.find? (low + 1) = some (stored (low + 1) next) :=
    holds.find_of_entryAt (Nat.lt_succ_self low) nextFound
  cases first : self.log.first? with
  | none =>
      rw [(self.log.first?_eq_none_iff).mp first] at found
      contradiction
  | some least =>
      have lower := OrderedMap.first?_le first found
      have upper := done least.1 least.2 first
      omega

theorem trimLoop_spec {fuel low : Nat} (invariant : Invariant a)
    (enough : self.log.entries.length ≤ fuel)
    (refines : Refines a history j { self with trimThrough := low })
    (le : low ≤ self.trimThrough) (applied : self.trimThrough ≤ self.lastApplied) :
    Achieves careful a history j (Replica.trimLoop fuel self) fun b later after =>
      Refines b later j after ∧ Steady self after ∧ after.lastApplied = self.lastApplied := by
  induction fuel generalizing a history self low with
  | zero =>
      have noFirst : self.log.first? = none := by
        unfold OrderedMap.first?
        rw [List.length_eq_zero_iff.mp (Nat.le_zero.mp enough)]
        rfl
      obtain rfl := refines.trimDone (by simp [noFirst]) le applied
      exact Achieves.pure ⟨refines, Steady.refl self, rfl⟩
  | succ fuel ih =>
      unfold Replica.trimLoop
      split
      · rename_i noFirst
        obtain rfl := refines.trimDone (by simp [noFirst]) le applied
        exact Achieves.pure ⟨refines, Steady.refl self, rfl⟩
      · rename_i slot entry first
        split
        · rename_i within
          obtain ⟨rfl, trimmed⟩ := refines.trimFirst invariant.logs first within applied
          have shorter : self.log.eraseFirst.entries.length ≤ fuel := by
            simp only [OrderedMap.eraseFirst, List.length_tail]
            omega
          refine Achieves.andThen
            (Q := fun b later after => Refines b later j { after with trimThrough := low + 1 })
            invariant ⟨a, Relation.ReflTransGen.refl, trimmed, by simp [SoundEvent]⟩ ?_
          intro b later invariantB _ holdsB
          exact (ih invariantB shorter holdsB within applied).imp fun c final after post =>
            ⟨post.1, ⟨post.2.1.role, post.2.1.round, post.2.1.commit⟩, post.2.2⟩
        · rename_i beyond
          have done : ∀ other kept, self.log.first? = some (other, kept) →
              self.trimThrough < other := by
            intro other kept same
            rw [first] at same
            cases same
            omega
          obtain rfl := refines.trimDone done le applied
          exact Achieves.pure ⟨refines, Steady.refl self, rfl⟩

/-- `trim_log_prefix` catches up with a trim point that has been raised. -/
theorem trimLogPrefix_spec {low : Nat} (invariant : Invariant a)
    (refines : Refines a history j { self with trimThrough := low })
    (le : low ≤ self.trimThrough) (applied : self.trimThrough ≤ self.lastApplied) :
    Achieves careful a history j self.trimLogPrefix fun b later after =>
      Refines b later j after ∧ Steady self after ∧ after.lastApplied = self.lastApplied :=
  trimLoop_spec invariant le_rfl refines le applied

/-! ## Executing -/

/-- The decided slots are in the log of every later leader. -/
theorem DecidedThrough.entryAt_leaderLog {round index slot : Nat} (invariant : Invariant a)
    (decided : DecidedThrough a history round index) (led : a.leader round ≠ none)
    (positive : 0 < slot) (le : slot ≤ index) :
    ∃ entry, entryAt (a.leaderLog round) slot = some entry ∧
      history.LeaderCommitted (stored slot entry) := by
  obtain ⟨q, k, entry, early, covered, chosen, found, committed⟩ := decided slot positive le
  refine ⟨entry, ?_, committed⟩
  apply entryAt_of_isPrefix (chosen.secured.isPrefix invariant early led)
  rw [entryAt_take, if_pos covered, found]

/-- The log of node `j` agrees with what leaders have committed at the slots
above `low` up to `high`. -/
def Vouched (a : Abstract n) (history : Trace n) (j : Fin n) (low high : Nat) : Prop :=
  ∀ slot, low < slot → slot ≤ high → ∃ entry,
    entryAt (a.log j) slot = some entry ∧ history.LeaderCommitted (stored slot entry)

/-- A leader has nothing but leader-committed entries up to its commit index. -/
theorem Refines.vouched_of_leader (invariant : Invariant a) (refines : Refines a history j self)
    (leader : self.role = .leader) : Vouched a history j 0 self.commitIndex := by
  intro slot positive le
  have leads := refines.leads.mp leader
  have logEq : a.log j = a.leaderLog self.currentRound := by
    rw [← refines.round] at leads ⊢
    exact invariant.logs.leads j leads
  rw [logEq]
  exact refines.decided.entryAt_leaderLog invariant (by simp [leads]) positive le

theorem replay_append (entries : List LogEntry) (entry : LogEntry) :
    replay (entries ++ [entry]) = execute (replay entries) entry := by
  simp [replay, List.foldl_append]

/-- A cached response answers its serial and is no redirection. -/
theorem replay_serial {entries : List LogEntry} {serial : Nat} {resp : Response}
    (cached : (replay entries).2 serial = some resp) :
    resp.serial = serial ∧ resp.isRedirection = false := by
  induction entries using List.reverseRecOn with
  | nil => simp [replay] at cached
  | append_singleton entries entry ih =>
      rw [replay_append] at cached
      unfold execute at cached
      split at cached
      · exact ih cached
      · by_cases same : serial = entry.req.serial
        · subst same
          simp only [Function.update_self, Option.some.injEq] at cached
          subst cached
          exact ⟨PancyDb.processReq_serial _ _, PancyDb.processReq_isRedirection _ _⟩
        · simp only [Function.update_of_ne same] at cached
          exact ih cached

/-- The replica after executing `entry` at the next slot, before it answers. -/
def Replica.executing (self : Replica n) (entry : LogEntry) : Replica n :=
  { self with
    lastApplied := self.lastApplied + 1
    db := (execute (self.db, self.responseCache) entry).1
    responseCache := (execute (self.db, self.responseCache) entry).2 }

theorem Replica.applyNext_eq {entry : LogEntry}
    (found : self.log.find? (self.lastApplied + 1) = some entry) :
    self.applyNext =
      if self.role = .leader ∧
          self.pendingClients entry.req.serial = some (self.lastApplied + 1) then
        ({ self.executing entry with
            pendingClients := Function.update self.pendingClients entry.req.serial none
            pendingClientSerials := self.pendingClientSerials.erase entry.req.serial },
          .applied entry ::
            ((self.executing entry).responseCache entry.req.serial).toList.map .respond)
      else (self.executing entry, [.applied entry]) := by
  have inner : (if (self.responseCache entry.req.serial).isSome then
        { self with lastApplied := self.lastApplied + 1 }
      else
        { self with
          lastApplied := self.lastApplied + 1
          db := (self.db.processReq entry.req).1
          responseCache := Function.update self.responseCache entry.req.serial
            (some (self.db.processReq entry.req).2) }) = self.executing entry := by
    unfold Replica.executing execute
    split <;> rfl
  simp only [Replica.applyNext, found, inner]
  rfl

/-- Executing the next slot of the log. -/
theorem Refines.executing {entry : Entry Request} (invariant : Invariant a)
    (refines : Refines a history j self) (behind : self.lastApplied < self.commitIndex)
    (found : entryAt (a.log j) (self.lastApplied + 1) = some entry)
    {answers : List (Event n)} (quiet : ∀ event ∈ answers, event.isQuiet = true) :
    Refines a
      (history ++ tagged j (.applied (stored (self.lastApplied + 1) entry) :: answers)) j
      (self.executing (stored (self.lastApplied + 1) entry)) := by
  have holds := refines.log
  have state := refines.state
  refine { refines with
    log := { holds with
      trimmed := holds.trimmed.trans (Nat.le_succ _)
      applied := behind }
    state := ⟨?_, ?_, ?_⟩
    decided := refines.decided.mono (Extends.refl a) invariant.logs le_rfl }
  · have executes : (tagged j (.applied (stored (self.lastApplied + 1) entry) :: answers)).executed
        j = [stored (self.lastApplied + 1) entry] := by
      have nothing := executed_tagged_of_quiet (j := j) quiet
      simpa [Trace.executed, tagged] using nothing
    rw [executed_append, state.executed, executes]
    exact (storedThrough_succ found).symm
  · have discards : (tagged j (.applied (stored (self.lastApplied + 1) entry) ::
        answers)).discarded j = [] := by
      have nothing := discarded_tagged_of_quiet (j := j) quiet
      simpa [Trace.discarded, tagged] using nothing
    rw [discarded_append, discards, List.append_nil]
    exact state.discarded
  · change execute (self.db, self.responseCache) _ = replay (storedThrough _ (_ + 1))
    rw [storedThrough_succ found, replay_append, ← state.replayed]

/-- What a leader caches may be sent. -/
theorem Refines.soundResponse (invariant : Invariant a) (refines : Refines a history j self)
    (leader : self.role = .leader) {serial : Nat} {resp : Response}
    (cached : self.responseCache serial = some resp) : SoundResponse history resp := by
  have vouched := refines.vouched_of_leader invariant leader
  have replayed : (replay (storedThrough (a.log j) self.lastApplied)).2 serial = some resp := by
    rw [← refines.state.replayed]
    exact cached
  refine ⟨a.log j, self.lastApplied, ?_, ?_⟩
  · exact fun slot positive le => vouched slot positive (le.trans refines.log.applied)
  · rw [(replay_serial replayed).1]
    exact replayed

theorem applyNext_spec (invariant : Invariant a) (refines : Refines a history j self)
    (behind : self.lastApplied < self.commitIndex)
    (vouched : careful → Vouched a history j self.lastApplied self.commitIndex) :
    Achieves careful a history j self.applyNext fun b later after =>
      Refines b later j after ∧ Steady self after ∧
        after.lastApplied = self.lastApplied + 1 ∧
        (careful → Vouched b later j after.lastApplied after.commitIndex) := by
  have holds := refines.log
  obtain ⟨entry, found⟩ : ∃ entry, entryAt (a.log j) (self.lastApplied + 1) = some entry :=
    exists_entryAt (Nat.succ_pos _) (Nat.lt_of_lt_of_le behind holds.committed)
  have kept := holds.find_of_entryAt (Nat.lt_succ_of_le holds.trimmed) found
  have still : ∀ later, careful → Vouched a (history ++ later) j
      (self.lastApplied + 1) self.commitIndex := by
    intro later care slot above le
    obtain ⟨source, sourceFound, committed⟩ := vouched care slot (by omega) le
    exact ⟨source, sourceFound, committed.mono⟩
  have applied : ∀ later, SoundEvent careful a (history ++ later)
      (.applied (stored (self.lastApplied + 1) entry)) := by
    intro later care
    obtain ⟨source, sourceFound, committed⟩ := vouched care _ (Nat.lt_succ_self _) behind
    rw [found] at sourceFound
    cases sourceFound
    exact committed.mono
  have answers : ∀ event ∈ ((self.executing (stored (self.lastApplied + 1) entry)).responseCache
      entry.value.serial).toList.map (Event.respond (n := n)), ∃ resp, event = .respond resp ∧
        (self.executing (stored (self.lastApplied + 1) entry)).responseCache
          entry.value.serial = some resp := by
    intro event member
    obtain ⟨resp, respMem, rfl⟩ := List.mem_map.mp member
    exact ⟨resp, rfl, Option.mem_toList.mp respMem⟩
  rw [Replica.applyNext_eq kept]
  split
  · rename_i waiting
    have after := refines.executing invariant behind found
      fun event member => by
        obtain ⟨resp, rfl, -⟩ := answers event member
        rfl
    refine ⟨a, Relation.ReflTransGen.refl, ⟨?_, ⟨rfl, rfl, rfl⟩, rfl, still _⟩, ?_⟩
    · exact (after.withClients _ _ _ _)
    · intro event member
      rcases List.mem_cons.mp member with rfl | member
      · exact applied _
      · obtain ⟨resp, rfl, cached⟩ := answers event member
        exact Or.inr (after.soundResponse invariant waiting.1 cached)
  · refine ⟨a, Relation.ReflTransGen.refl, ⟨?_, ⟨rfl, rfl, rfl⟩, rfl, still _⟩, ?_⟩
    · exact refines.executing invariant behind found (by simp)
    · simpa using applied _

theorem applyLoop_spec {count : Nat} (invariant : Invariant a)
    (refines : Refines a history j self) (behind : self.lastApplied + count ≤ self.commitIndex)
    (vouched : careful → Vouched a history j self.lastApplied self.commitIndex) :
    Achieves careful a history j (Replica.applyLoop count self) fun b later after =>
      Refines b later j after ∧ Steady self after ∧
        after.lastApplied = self.lastApplied + count := by
  induction count generalizing a history self with
  | zero => exact Achieves.pure ⟨refines, Steady.refl self, rfl⟩
  | succ count ih =>
      refine (applyNext_spec invariant refines (by omega) vouched).andThen invariant ?_
      intro b later invariantB _ ⟨refinesB, steady, appliedEq, vouchedB⟩
      refine (ih invariantB refinesB ?_ vouchedB).imp ?_
      · rw [appliedEq, steady.commit]
        omega
      · intro c final after ⟨refinesC, steadyC, appliedC⟩
        exact ⟨refinesC, steady.trans steadyC, by omega⟩

/-- `apply_committed_entries` executes everything up to the commit index. -/
theorem applyCommittedEntries_spec (invariant : Invariant a) (refines : Refines a history j self)
    (vouched : careful → Vouched a history j self.lastApplied self.commitIndex) :
    Achieves careful a history j self.applyCommittedEntries fun b later after =>
      Refines b later j after ∧ Steady self after ∧ after.lastApplied = after.commitIndex := by
  have applied := refines.log.applied
  refine (applyLoop_spec invariant refines (by omega) vouched).andThen invariant ?_
  intro b later invariantB _ ⟨refinesB, steady, appliedEq⟩
  refine (trimLogPrefix_spec invariantB refinesB le_rfl refinesB.log.trimmed).imp ?_
  intro c final after ⟨refinesC, steadyC, appliedC⟩
  refine ⟨refinesC, steady.trans steadyC, ?_⟩
  rw [appliedC, steadyC.commit, appliedEq, steady.commit]
  omega

/-! ## Committing -/

theorem countP_finRange (p : Fin n → Prop) [DecidablePred p] :
    (List.finRange n).countP (fun v => p v) = (Finset.univ.filter p).card := by
  rw [Fin.univ_def, Finset.card, List.countP_eq_length_filter]
  rfl

theorem Replica.commitScan_spec {count idx : Nat} (found : self.commitScan count = some idx) :
    self.commitIndex < idx ∧ idx ≤ self.commitIndex + count ∧
      self.roundAt idx = self.currentRound ∧ self.hasQuorum (self.replicated idx) = true := by
  induction count with
  | zero => contradiction
  | succ count ih =>
      simp only [Replica.commitScan] at found
      split at found
      · rename_i passed
        cases found
        exact ⟨by omega, le_rfl, passed⟩
      · obtain ⟨above, within, rest⟩ := ih found
        exact ⟨above, by omega, rest⟩

/-- The replicas that `update_commit_index` counts are a quorum. -/
theorem Replica.isQuorum_of_replicated {idx : Nat}
    (quorum : self.hasQuorum (self.replicated idx) = true) :
    IsQuorum (Finset.univ.filter fun v => v = self.index ∨ idx ≤ self.matchIndex v) := by
  have split : (Finset.univ.filter fun v => v = self.index ∨ idx ≤ self.matchIndex v) =
      insert self.index
        (Finset.univ.filter fun v => v ≠ self.index ∧ idx ≤ self.matchIndex v) := by
    ext v
    simp only [Finset.mem_filter, Finset.mem_univ, true_and, Finset.mem_insert]
    tauto
  have enough : n / 2 + 1 ≤ self.replicated idx := of_decide_eq_true quorum
  unfold IsQuorum
  rw [split, Finset.card_insert_of_notMem (by simp), Fintype.card_fin]
  unfold Replica.replicated at enough
  rw [countP_finRange] at enough
  omega

theorem Replica.mem_entriesBetween {low high : Nat} {kept : LogEntry} :
    kept ∈ self.entriesBetween low high ↔
      ∃ slot, low < slot ∧ slot ≤ high ∧ self.log.find? slot = some kept := by
  simp only [Replica.entriesBetween, List.mem_map, List.mem_filter, decide_eq_true_eq,
    OrderedMap.find?_eq_some_iff, Prod.exists]
  constructor
  · rintro ⟨slot, entry, ⟨member, above, within⟩, rfl⟩
    exact ⟨slot, above, within, member⟩
  · rintro ⟨slot, above, within, member⟩
    exact ⟨slot, kept, ⟨member, above, within⟩, rfl⟩

/-- What `update_commit_index` covers is chosen. -/
theorem Refines.chosen {idx count : Nat} (invariant : Invariant a)
    (refines : Refines a history j self) (leader : self.role = .leader)
    (le : self.commitIndex + count ≤ self.lastLogIndex)
    (found : self.commitScan count = some idx) :
    Chosen a self.currentRound idx ∧ a.log j = a.leaderLog self.currentRound := by
  obtain ⟨above, within, roundEq, quorum⟩ := Replica.commitScan_spec found
  have holds := refines.log
  have leads := refines.leads.mp leader
  have logEq : a.log j = a.leaderLog self.currentRound := by
    rw [← refines.round] at leads ⊢
    exact invariant.logs.leads j leads
  have bound : idx ≤ (a.leaderLog self.currentRound).length := by
    rw [← logEq, ← holds.lastLogIndex]
    omega
  refine ⟨⟨by omega, bound, ?_, _, Replica.isQuorum_of_replicated quorum, ?_⟩, logEq⟩
  · rw [← logEq, ← holds.roundAt, roundEq]
    have trimmed := holds.trimmed.trans holds.applied
    omega
  · intro v member
    rcases (Finset.mem_filter.mp member).2 with rfl | matched
    · rw [refines.index, invariant.logs.acked_leader _ _ leads]
      exact bound
    · exact matched.trans (refines.matched leader v)

/-- `update_commit_index` covers chosen entries only. -/
theorem updateCommitIndex_spec (invariant : Invariant a) (refines : Refines a history j self) :
    Achieves careful a history j self.updateCommitIndex fun b later after =>
      Refines b later j after ∧ after.role = self.role := by
  unfold Replica.updateCommitIndex
  split
  · exact Achieves.pure ⟨refines, rfl⟩
  · rename_i leader
    rw [not_not] at leader
    split
    · exact Achieves.pure ⟨refines, rfl⟩
    · rename_i idx found
      have holds := refines.log
      obtain ⟨above, within, -⟩ := Replica.commitScan_spec found
      have below : idx ≤ (a.log j).length := by
        rw [← holds.lastLogIndex]
        omega
      obtain ⟨chosen, logEq⟩ := refines.chosen invariant leader (by omega) found
      set entries := self.entriesBetween self.commitIndex idx with entriesEq
      have covers : ∀ slot entry, self.commitIndex < slot → slot ≤ idx →
          entryAt (a.log j) slot = some entry → stored slot entry ∈ entries := by
        intro slot entry above le entryFound
        rw [entriesEq, Replica.mem_entriesBetween]
        refine ⟨slot, above, le, holds.find_of_entryAt ?_ entryFound⟩
        exact (holds.trimmed.trans holds.applied).trans_lt above
      have quiet : ∀ event ∈ [Event.committed (n := n) entries], event.isQuiet = true := by
        simp [Event.isQuiet]
      have advanced := refines.quiet invariant.logs quiet
      refine ⟨a, Relation.ReflTransGen.refl, ⟨?_, rfl⟩, ?_⟩
      · refine { advanced with
          log := { holds with applied := holds.applied.trans above.le, committed := below }
          state := { advanced.state with }
          decided := ?_ }
        intro slot positive le
        rcases Nat.lt_or_ge self.commitIndex slot with above | old
        · obtain ⟨entry, entryFound⟩ := exists_entryAt positive (le.trans below)
          refine ⟨_, idx, entry, le_rfl, le, chosen, logEq ▸ entryFound, j, entries, ?_,
            covers slot entry above le entryFound⟩
          simp [tagged]
        · exact advanced.decided slot positive old
      · intro event member
        obtain rfl := List.mem_singleton.mp member
        intro entry entryMem
        obtain ⟨slot, above, le, kept⟩ := Replica.mem_entriesBetween.mp entryMem
        obtain ⟨-, source, sourceFound, rfl⟩ := holds.entryAt_of_find kept
        exact ⟨_, idx, source, le, chosen, logEq ▸ sourceFound, rfl⟩

/-- `update_trim_watermark` trims only what has been executed. -/
theorem updateTrimWatermark_spec (invariant : Invariant a) (refines : Refines a history j self)
    (applied : self.lastApplied = self.commitIndex) :
    Achieves careful a history j self.updateTrimWatermark fun b later after =>
      Refines b later j after ∧ Steady self after ∧ after.lastApplied = after.commitIndex := by
  unfold Replica.updateTrimWatermark
  split
  · exact Achieves.pure ⟨refines, Steady.refl self, applied⟩
  · dsimp only
    generalize List.foldl _ _ _ = low
    have target : (if Replica.trimRetention < min low self.commitIndex then
        min low self.commitIndex - Replica.trimRetention else 0) ≤ self.commitIndex := by
      split <;> omega
    generalize (if Replica.trimRetention < min low self.commitIndex then
      min low self.commitIndex - Replica.trimRetention else 0) = goal at target ⊢
    split
    · rename_i raised
      have trims := @trimLogPrefix_spec n careful a history j { self with trimThrough := goal }
        self.trimThrough invariant refines raised.le (target.trans applied.ge)
      refine trims.imp ?_
      intro b later after ⟨refinesB, steady, appliedEq⟩
      refine ⟨refinesB, ⟨steady.role, steady.round, steady.commit⟩, ?_⟩
      rw [appliedEq, steady.commit]
      exact applied
    · exact Achieves.pure ⟨refines, Steady.refl self, applied⟩

end Specifications

end DoomDraft.Paxos
