import DoomDraft.Consensus.Invariant

/-!
# Every step preserves the invariants

The steps of a node touch disjoint parts of the record, so each group of
invariants is preserved by its own argument.  Quorum intersection is used once,
to see that an elected node takes an office that was vacant; the voting rule is
used once, to carry an acknowledged prefix over to a candidate.
-/

namespace DoomDraft.Consensus

universe u v

variable {N : Type u} {V : Type v} [Fintype N] [DecidableEq N]

/-! ## Elections fill vacant offices -/

/-- A node that holds the votes of a quorum and is not yet leader runs for a
vacant office. -/
theorem Ballots.vacant {s : State N V} (ballots : Ballots s) {j : N} {voters : Finset N}
    (quorum : IsQuorum voters) (granted : ∀ v ∈ voters, s.vote v (s.round j) = some j)
    {log : List (Entry V)} (stands : s.candidacy j (s.round j) = some log)
    (fresh : s.leader (s.round j) ≠ some j) : s.leader (s.round j) = none := by
  cases leads : s.leader (s.round j) with
  | none => rfl
  | some other =>
      exfalso
      have positive := ballots.candidacy_pos j (s.round j) log stands
      obtain ⟨otherVoters, otherQuorum, otherGranted⟩ :=
        ballots.leader_votes (s.round j) other leads positive
      obtain ⟨v, member, otherMember⟩ := quorum.exists_common otherQuorum
      have same : some j = some other :=
        (granted v member).symm.trans (otherGranted v otherMember)
      exact fresh (leads.trans same.symm)

/-- Every step only adds to the record. -/
theorem Step.extends {j : N} {s t : State N V} (step : Step j s t) (ballots : Ballots s)
    (logs : Logs s) : Extends s t := by
  cases step with
  | advance r le =>
      refine { Extends.refl s with round := ?_ }
      intro v
      by_cases equal : v = j
      · subst v
        simpa using le
      · simp [equal]
  | stand =>
      refine { Extends.refl s with round := ?_, vote := ?_, candidacy := ?_ }
      · intro v
        by_cases equal : v = j
        · subst v
          simp
        · simp [equal]
      · intro v r c voted
        have bound := ballots.vote_le v r c voted
        have other : ¬ (v = j ∧ r = s.round j + 1) := by
          rintro ⟨rfl, rfl⟩
          omega
        simpa [record, other] using voted
      · intro c r log stands
        have bound := ballots.vote_le c r c (ballots.candidacy_vote c r log stands)
        have other : ¬ (c = j ∧ r = s.round j + 1) := by
          rintro ⟨rfl, rfl⟩
          omega
        simpa [record, other] using stands
  | grant c candidate free stands upToDate =>
      refine { Extends.refl s with vote := ?_ }
      intro v r c voted
      have other : ¬ (v = j ∧ r = s.round j) := by
        rintro ⟨rfl, rfl⟩
        rw [free] at voted
        contradiction
      simpa [record, other] using voted
  | elect voters quorum granted stands fresh =>
      have vacant := ballots.vacant quorum granted stands fresh
      refine { Extends.refl s with leader := ?_, leaderLog := ?_, acked := ?_ }
      · intro r c leads
        have other : r ≠ s.round j := by
          rintro rfl
          rw [vacant] at leads
          contradiction
        simpa [other] using leads
      · intro r led
        have other : r ≠ s.round j := by
          rintro rfl
          exact led vacant
        exact ⟨[], by simp [other], by simp⟩
      · intro v r
        by_cases here : v = j ∧ r = s.round j
        · obtain ⟨rfl, rfl⟩ := here
          have unacked := logs.acked_le v (s.round v)
          rw [logs.unled _ vacant] at unacked
          simp only [List.length_nil] at unacked
          simp [record]
          omega
        · simp [record, here]
  | append value leads =>
      have logEq := logs.leads j leads
      refine { Extends.refl s with leaderLog := ?_, acked := ?_ }
      · intro r led
        by_cases here : r = s.round j
        · subst r
          refine ⟨[⟨s.round j, value⟩], ?_, by simp⟩
          simp [logEq]
        · exact ⟨[], by simp [here], by simp⟩
      · intro v r
        by_cases here : v = j ∧ r = s.round j
        · obtain ⟨rfl, rfl⟩ := here
          have acked := logs.acked_le v (s.round v)
          rw [← logEq] at acked
          simp [record]
          omega
        · simp [record, here]
  | accept l count next leads other le adopts =>
      refine { Extends.refl s with acked := ?_ }
      intro v r
      by_cases here : v = j ∧ r = s.round j
      · obtain ⟨rfl, rfl⟩ := here
        simp [record]
      · simp [record, here]

/-- A step of node `j` leaves the other nodes alone. -/
theorem Step.frame {j : N} {s t : State N V} (step : Step j s t) : Frame j s t := by
  cases step with
  | advance r le => exact { Frame.refl j s with round := fun v other => by simp [other] }
  | stand =>
      exact { Frame.refl j s with
        round := fun v other => by simp [other]
        vote := fun v other => record_of_ne _ _ _ other
        candidacy := fun v other => record_of_ne _ _ _ other }
  | grant c candidate free stands upToDate =>
      exact { Frame.refl j s with vote := fun v other => record_of_ne _ _ _ other }
  | elect voters quorum granted stands fresh =>
      refine { Frame.refl j s with leader := ?_ }
      intro v r other leads
      rcases update_some_cases leads with ⟨-, same⟩ | leads
      · exact absurd same.symm other
      · exact leads
  | append value leads => exact { Frame.refl j s with log := fun v other => by simp [other] }
  | accept l count next leads other le adopts =>
      exact { Frame.refl j s with log := fun v other => by simp [other] }

theorem Steps.frame {j : N} {s t : State N V} (steps : Steps j s t) : Frame j s t := by
  induction steps with
  | refl => exact Frame.refl j s
  | tail _ step ih => exact ih.trans step.frame

/-! ## Ballots -/

theorem Ballots.step {j : N} {s t : State N V} (ballots : Ballots s) (step : Step j s t)
    (extension : Extends s t) : Ballots t := by
  -- Every clause but the last survives growth of the record as soon as the new
  -- votes, candidacies and offices of the step satisfy it.
  cases step with
  | advance r le =>
      refine { ballots with vote_le := ?_, leader_le := ?_ }
      · intro v q c voted
        exact (ballots.vote_le v q c voted).trans (extension.round v)
      · intro q c leads
        exact (ballots.leader_le q c leads).trans (extension.round c)
  | stand =>
      constructor
      · intro v r c voted
        rcases record_some_cases voted with ⟨rfl, rfl, -⟩ | voted
        · simp
        · exact (ballots.vote_le v r c voted).trans (extension.round v)
      · intro v r c voted positive
        rcases record_some_cases voted with ⟨rfl, rfl, rfl⟩ | voted
        · simp [record]
        · obtain ⟨log, stands⟩ :=
            Option.ne_none_iff_exists'.mp (ballots.vote_stands v r c voted positive)
          rw [extension.candidacy c r log stands]
          simp
      · intro c r log stands
        rcases record_some_cases stands with ⟨-, rfl, -⟩ | stands
        · exact Nat.succ_pos _
        · exact ballots.candidacy_pos c r log stands
      · intro c r log stands
        rcases record_some_cases stands with ⟨rfl, rfl, -⟩ | stands
        · simp [record]
        · exact extension.vote c r c (ballots.candidacy_vote c r log stands)
      · intro r c leads
        exact (ballots.leader_le r c leads).trans (extension.round c)
      · intro r c leads positive
        obtain ⟨voters, quorum, granted⟩ := ballots.leader_votes r c leads positive
        exact ⟨voters, quorum, fun v member => extension.vote v r c (granted v member)⟩
  | grant c candidate free stands upToDate =>
      refine { ballots with vote_le := ?_, vote_stands := ?_, candidacy_vote := ?_,
                            leader_votes := ?_ }
      · intro v r d voted
        rcases record_some_cases voted with ⟨rfl, rfl, -⟩ | voted
        · exact le_rfl
        · exact ballots.vote_le v r d voted
      · intro v r d voted positive
        rcases record_some_cases voted with ⟨rfl, rfl, rfl⟩ | voted
        · change s.candidacy c (s.round v) ≠ none
          rw [stands]
          simp
        · exact ballots.vote_stands v r d voted positive
      · intro d r log stood
        exact extension.vote d r d (ballots.candidacy_vote d r log stood)
      · intro r d leads positive
        obtain ⟨voters, quorum, granted⟩ := ballots.leader_votes r d leads positive
        exact ⟨voters, quorum, fun v member => extension.vote v r d (granted v member)⟩
  | elect voters quorum granted stands fresh =>
      refine { ballots with leader_le := ?_, leader_votes := ?_ }
      · intro r c leads
        rcases update_some_cases leads with ⟨rfl, rfl⟩ | leads
        · exact le_rfl
        · exact ballots.leader_le r c leads
      · intro r c leads positive
        rcases update_some_cases leads with ⟨rfl, rfl⟩ | leads
        · exact ⟨voters, quorum, granted⟩
        · exact ballots.leader_votes r c leads positive
  | append value leads => exact { ballots with }
  | accept l count next leads other le adopts => exact { ballots with }

/-! ## Logs -/

omit [Fintype N] [DecidableEq N] in
/-- A leader that appends keeps its log well formed. -/
theorem WellFormed.append {t : State N V} {log : List (Entry V)} {entry : Entry V}
    (wellFormed : WellFormed t log) (led : t.leader entry.round ≠ none)
    (logEq : t.leaderLog entry.round = log ++ [entry]) : WellFormed t (log ++ [entry]) := by
  intro slot found foundAt
  have bounds := entryAt_bounds foundAt
  simp only [List.length_append, List.length_singleton] at bounds
  rcases Nat.lt_or_ge log.length slot with last | inside
  · have slotEq : slot = log.length + 1 := by omega
    subst slotEq
    have entryEq : found = entry := by simpa [entryAt] using foundAt.symm
    subst found
    refine ⟨led, ?_⟩
    rw [logEq]
    exact List.take_prefix _ _
  · rw [entryAt_append_of_le inside] at foundAt
    rw [List.take_append_of_le_length inside]
    exact wellFormed slot found foundAt

omit [Fintype N] in
/-- Acknowledgements are for the current round. -/
theorem Logs.acked_round_record {j : N} {s : State N V} (logs : Logs s) (k : Nat) :
    ∀ v r, 0 < record s.acked j (s.round j) k v r → r ≤ s.round v := by
  intro v r positive
  by_cases here : v = j ∧ r = s.round j
  · exact here.1 ▸ here.2.le
  · simp only [record, here, if_false] at positive
    exact logs.acked_round v r positive

omit [Fintype N] in
/-- A leader publishes its log, when it is elected and when it appends. -/
theorem Logs.publish {j : N} {s t : State N V} (logs : Logs s) (extension : Extends s t)
    {newLog : List (Entry V)} (round : t.round = s.round) (candidacy : t.candidacy = s.candidacy)
    (leader : t.leader = Function.update s.leader (s.round j) (some j))
    (log : t.log = Function.update s.log j newLog)
    (leaderLog : t.leaderLog = Function.update s.leaderLog (s.round j) newLog)
    (acked : t.acked = record s.acked j (s.round j) newLog.length)
    (newWellFormed : WellFormed t newLog) (newLe : ∀ entry ∈ newLog, entry.round ≤ s.round j)
    (grown : (s.leaderLog (s.round j)).length ≤ newLog.length) : Logs t := by
  constructor
  · intro c leads
    rw [leader, round] at leads
    rw [log, leaderLog, round]
    by_cases own : c = j
    · subst own
      rw [Function.update_self, Function.update_self]
    · have here : s.round c ≠ s.round j := by
        intro same
        rw [same, Function.update_self] at leads
        exact own (Option.some.inj leads).symm
      rw [Function.update_of_ne here] at leads
      rw [Function.update_of_ne own, Function.update_of_ne here]
      exact logs.leads c leads
  · intro r unled
    rw [leader] at unled
    have here : r ≠ s.round j := by
      rintro rfl
      rw [Function.update_self] at unled
      contradiction
    rw [Function.update_of_ne here] at unled
    rw [leaderLog, Function.update_of_ne here]
    exact logs.unled r unled
  · rw [log, Function.forall_update_iff s.log fun _ log => WellFormed t log]
    exact ⟨newWellFormed, fun v _ => extension.wellFormed (logs.log_wellFormed v)⟩
  · rw [log, round, Function.forall_update_iff s.log fun v log => ∀ entry ∈ log,
      entry.round ≤ s.round v]
    exact ⟨newLe, fun v _ => logs.log_le v⟩
  · rw [leaderLog, Function.forall_update_iff s.leaderLog fun _ log => WellFormed t log]
    exact ⟨newWellFormed, fun r _ => extension.wellFormed (logs.leaderLog_wellFormed r)⟩
  · rw [leaderLog, Function.forall_update_iff s.leaderLog fun r log => ∀ entry ∈ log,
      entry.round ≤ r]
    exact ⟨newLe, fun r _ => logs.leaderLog_le r⟩
  · rw [candidacy]
    exact fun c r log stood => extension.wellFormed (logs.candidacy_wellFormed c r log stood)
  · rw [candidacy]
    exact logs.candidacy_lt
  · intro v r
    rw [acked, leaderLog]
    have before := logs.acked_le v r
    by_cases here : r = s.round j
    · subst here
      rw [Function.update_self, record]
      split
      · exact le_rfl
      · exact before.trans grown
    · rw [Function.update_of_ne here]
      simpa [record, here] using before
  · rw [acked, round]
    exact logs.acked_round_record newLog.length
  · intro r c leads
    rw [leader] at leads
    rw [acked, leaderLog]
    by_cases here : r = s.round j
    · subst here
      rw [Function.update_self] at leads
      obtain rfl := Option.some.inj leads
      simp [record]
    · rw [Function.update_of_ne here] at leads ⊢
      simpa [record, here] using logs.acked_leader r c leads

omit [Fintype N] in
/-- A member enters a later round, which it does not lead yet. -/
theorem Logs.enter {j : N} {s : State N V} (logs : Logs s) {r : Nat} (le : s.round j ≤ r)
    (own : s.leader r = some j → r = s.round j) :
    Logs { s with round := Function.update s.round j r } := by
  have later : s.round ≤ Function.update s.round j r := le_update_self_iff.mpr le
  refine { logs with leads := ?_, log_le := ?_, acked_round := ?_ }
  · intro c leads
    by_cases equal : c = j
    · subst c
      simp only [Function.update_self] at leads ⊢
      obtain rfl := own leads
      exact logs.leads j leads
    · simp only [Function.update_of_ne equal] at leads ⊢
      exact logs.leads c leads
  · exact fun v entry member => (logs.log_le v entry member).trans (later v)
  · exact fun v q positive => (logs.acked_round v q positive).trans (later v)

theorem Logs.step {j : N} {s t : State N V} (logs : Logs s) (ballots : Ballots s)
    (step : Step j s t) (extension : Extends s t) : Logs t := by
  cases step with
  | advance r le =>
      exact logs.enter le fun leads => le_antisymm (ballots.leader_le r j leads) le
  | stand =>
      have entered : Logs { s with round := Function.update s.round j (s.round j + 1) } := by
        refine logs.enter (Nat.le_succ _) fun leads => ?_
        have bound := ballots.leader_le _ j leads
        omega
      refine { entered with candidacy_wellFormed := ?_, candidacy_lt := ?_ }
      · intro c r log stands
        rcases record_some_cases stands with ⟨-, -, rfl⟩ | stands
        · exact logs.log_wellFormed j
        · exact logs.candidacy_wellFormed c r log stands
      · intro c r log stands entry member
        rcases record_some_cases stands with ⟨-, rfl, rfl⟩ | stands
        · exact Nat.lt_succ_of_le (logs.log_le j entry member)
        · exact logs.candidacy_lt c r log stands entry member
  | grant c candidate free stands upToDate => exact { logs with }
  | elect voters quorum granted stands fresh =>
      have vacant := ballots.vacant quorum granted stands fresh
      refine logs.publish extension rfl rfl rfl (Function.update_eq_self j s.log).symm rfl rfl
        (extension.wellFormed (logs.log_wellFormed j)) (logs.log_le j) ?_
      rw [logs.unled _ vacant]
      exact Nat.zero_le _
  | append value leads =>
      have logEq := logs.leads j leads
      refine logs.publish extension rfl rfl ?_ rfl rfl (by simp) ?_ ?_ ?_
      · rw [← leads, Function.update_eq_self]
      · refine (extension.wellFormed (logs.log_wellFormed j)).append ?_ ?_
        · simp [leads]
        · simp
      · intro entry member
        rcases List.mem_append.mp member with old | new
        · exact logs.log_le j entry old
        · rw [List.mem_singleton.mp new]
      · rw [← logEq, List.length_append]
        exact Nat.le_add_right _ _
  | accept l count next leads other le adopts =>
      have nextCases : next = s.log j ∨ next = (s.leaderLog (s.round j)).take count := by
        rcases adopts with ⟨-, equal⟩ | ⟨-, equal⟩
        · exact Or.inl equal
        · exact Or.inr equal
      refine { logs with leads := ?_, log_wellFormed := ?_, log_le := ?_, acked_le := ?_,
                         acked_round := ?_, acked_leader := ?_ }
      · intro c leadsHere
        have notSelf : c ≠ j := by
          rintro rfl
          exact other (Option.some.inj (leads.symm.trans leadsHere))
        simpa [notSelf] using logs.leads c leadsHere
      · refine (Function.forall_update_iff s.log fun _ log => WellFormed s log).mpr
          ⟨?_, fun v _ => logs.log_wellFormed v⟩
        rcases nextCases with rfl | rfl
        · exact logs.log_wellFormed j
        · exact (logs.leaderLog_wellFormed _).of_isPrefix (List.take_prefix _ _)
      · refine (Function.forall_update_iff s.log fun v log => ∀ entry ∈ log,
          entry.round ≤ s.round v).mpr ⟨?_, fun v _ => logs.log_le v⟩
        rcases nextCases with rfl | rfl
        · exact logs.log_le j
        · exact fun entry member => logs.leaderLog_le _ entry (List.mem_of_mem_take member)
      · intro v r
        by_cases here : v = j ∧ r = s.round j
        · obtain ⟨rfl, rfl⟩ := here
          have bound := logs.acked_le v (s.round v)
          simp [record, bound, le]
        · simpa [record, here] using logs.acked_le v r
      · exact logs.acked_round_record _
      · intro r c leadsHere
        have notHere : ¬ (c = j ∧ r = s.round j) := by
          rintro ⟨rfl, rfl⟩
          exact other (Option.some.inj (leads.symm.trans leadsHere))
        simpa [record, notHere] using logs.acked_leader r c leadsHere

end DoomDraft.Consensus
