import DoomDraft.Consensus.Preservation

/-!
# Acknowledged prefixes are retained

An acknowledged prefix leaves a log only through adoption from a leader that
lacks it, and an up-to-date candidate carries every binding prefix of its
voters unless a leader in between lacked it.  Both facts are statements about
the record alone, so they can be preserved step by step without knowing which
prefixes will in the end be chosen.
-/

namespace DoomDraft.Consensus

universe u v

section Stability

variable {N : Type u} {V : Type v}

/-! ## Stability under growth of the record -/

theorem Extends.take_eq {s t : State N V} (extension : Extends s t) (logs : Logs s) {r k : Nat}
    (le : k ≤ (s.leaderLog r).length) : (t.leaderLog r).take k = (s.leaderLog r).take k := by
  by_cases led : s.leader r = none
  · have empty := logs.unled r led
    rw [empty] at le
    obtain rfl : k = 0 := Nat.le_zero.mp le
    rfl
  · obtain ⟨more, moreEq, -⟩ := extension.leaderLog r led
    rw [moreEq, List.take_append_of_le_length le]

theorem Extends.roundAt_eq {s t : State N V} (extension : Extends s t) (logs : Logs s)
    {r k : Nat} (le : k ≤ (s.leaderLog r).length) :
    roundAt (t.leaderLog r) k = roundAt (s.leaderLog r) k := by
  unfold roundAt
  rw [entryAt_eq_of_take_eq (extension.take_eq logs le) le_rfl]

theorem Extends.binding {s t : State N V} (extension : Extends s t) (logs : Logs s) {v c : N}
    {r k : Nat} (le : k ≤ (s.leaderLog r).length) (binding : Binding t v c r k) :
    Binding s v c r k := by
  unfold Binding at binding ⊢
  rwa [extension.roundAt_eq logs le] at binding

/-- A leader that lacks a prefix of an earlier leader never acquires it: all it
appends is of its own, later round. -/
theorem Lost.mono {s t : State N V} (extension : Extends s t) (logs : Logs s) {r k low high : Nat}
    (lost : Lost s r k low) (le : k ≤ (s.leaderLog r).length) (bound : low ≤ high) :
    Lost t r k high := by
  obtain ⟨q, later, below, led, lacks⟩ := lost
  refine ⟨q, later, below.trans_le bound, extension.leader_ne_none led, ?_⟩
  obtain ⟨more, moreEq, moreRound⟩ := extension.leaderLog q led
  rw [extension.take_eq logs le, moreEq]
  intro isPrefix
  rcases Nat.lt_or_ge (s.leaderLog q).length ((s.leaderLog r).take k).length with longer | shorter
  · -- The first appended entry would be an entry of the prefix.
    have inMore : (s.leaderLog q).length < (s.leaderLog q ++ more).length :=
      longer.trans_le isPrefix.length_le
    have same := isPrefix.getElem longer
    rw [List.getElem_append_right le_rfl] at same
    have early := logs.leaderLog_le r _ (List.mem_of_mem_take (List.getElem_mem longer))
    rw [same, moreRound _ (List.getElem_mem _)] at early
    omega
  · exact lacks (List.prefix_of_prefix_length_le isPrefix (List.prefix_append _ _) shorter)

theorem Kept.mono {s t : State N V} (extension : Extends s t) (logs : Logs s)
    {r k low high : Nat} {log longer : List (Entry V)} (kept : Kept s r k log low)
    (le : k ≤ (s.leaderLog r).length) (isPrefix : log <+: longer) (bound : low ≤ high) :
    Kept t r k longer high := by
  rcases kept with held | lost
  · left
    rw [extension.take_eq logs le]
    exact held.trans isPrefix
  · exact Or.inr (lost.mono extension logs le bound)

theorem kept_zero (s : State N V) (r : Nat) (log : List (Entry V)) (bound : Nat) :
    Kept s r 0 log bound :=
  Or.inl (List.nil_prefix)

/-! ## The voting rule -/

/-- Rounds do not decrease along a well-formed log. -/
theorem WellFormed.round_mono {s : State N V} (logs : Logs s) {log : List (Entry V)}
    (wellFormed : WellFormed s log) {low high : Nat} {lowEntry highEntry : Entry V}
    (lowFound : entryAt log low = some lowEntry) (highFound : entryAt log high = some highEntry)
    (le : low ≤ high) : lowEntry.round ≤ highEntry.round := by
  have carried : entryAt (s.leaderLog highEntry.round) low = some lowEntry := by
    apply entryAt_of_isPrefix (wellFormed high highEntry highFound).2
    rw [entryAt_take, if_pos le, lowFound]
  exact logs.leaderLog_le _ _ (mem_of_entryAt carried)

theorem exists_lastRound {log : List (Entry V)} (nonempty : 0 < log.length) :
    ∃ entry, entryAt log log.length = some entry ∧ entry.round = lastRound log := by
  obtain ⟨entry, found⟩ := exists_entryAt nonempty le_rfl
  exact ⟨entry, found, (roundAt_of_entryAt found).symm⟩

/-- A candidate whose log is up to date carries every prefix of the voter that
ends with an entry of its own round, unless a leader in between lost it. -/
theorem UpToDate.kept {s : State N V} (logs : Logs s) {candidate own : List (Entry V)}
    {r k q : Nat} (upToDate : UpToDate candidate own)
    (candidateWellFormed : WellFormed s candidate) (ownWellFormed : WellFormed s own)
    (candidateLt : ∀ entry ∈ candidate, entry.round < q)
    (le : k ≤ (s.leaderLog r).length) (endRound : roundAt (s.leaderLog r) k = r)
    (held : (s.leaderLog r).take k <+: own) : Kept s r k candidate q := by
  rcases Nat.eq_zero_or_pos k with rfl | positive
  · exact kept_zero s r candidate q
  obtain ⟨entry, found⟩ := exists_entryAt positive le
  have entryRound : entry.round = r := (roundAt_of_entryAt found).symm.trans endRound
  have ownFound : entryAt own k = some entry := by
    apply entryAt_of_isPrefix held
    rw [entryAt_take, if_pos le_rfl, found]
  have ownLength := (entryAt_bounds ownFound).2
  have ownNonempty : 0 < own.length := positive.trans_le ownLength
  obtain ⟨ownLast, ownLastFound, ownLastRound⟩ := exists_lastRound ownNonempty
  have ownLate : r ≤ lastRound own := by
    rw [← ownLastRound, ← entryRound]
    exact ownWellFormed.round_mono logs ownFound ownLastFound ownLength
  have candidateNonempty : 0 < candidate.length := by
    rcases upToDate with later | ⟨-, longer⟩
    · by_contra empty
      have nil : candidate = [] := List.eq_nil_of_length_eq_zero (by omega)
      subst candidate
      simp [lastRound, roundAt, entryAt] at later
    · omega
  obtain ⟨last, lastFound, lastEq⟩ := exists_lastRound candidateNonempty
  obtain ⟨led, whole⟩ := candidateWellFormed _ last lastFound
  rw [List.take_length] at whole
  rcases upToDate with later | ⟨same, longer⟩
  · -- The candidate ends in a later round: compare with the leader of that round.
    by_cases carried : (s.leaderLog r).take k <+: s.leaderLog last.round
    · rcases List.prefix_or_prefix_of_prefix carried whole with sub | sub
      · exact Or.inl sub
      · have lastInPrefix := entryAt_of_isPrefix sub lastFound
        have early := logs.leaderLog_le r _ (List.mem_of_mem_take (mem_of_entryAt lastInPrefix))
        omega
    · exact Or.inr ⟨last.round, by omega, candidateLt last (mem_of_entryAt lastFound), led,
        carried⟩
  · -- Both logs end in one round: the longer extends the shorter.
    obtain ⟨-, ownWhole⟩ := ownWellFormed _ ownLast ownLastFound
    rw [List.take_length, ownLastRound, same, ← lastEq] at ownWhole
    exact Or.inl (held.trans (List.prefix_of_prefix_length_le ownWhole whole longer))

/-- Adoption keeps every acknowledged prefix that the leader has. -/
theorem Adopts.kept {s : State N V} {own next : List (Entry V)} {r k q count : Nat}
    (adopts : Adopts ((s.leaderLog q).take count) own next) (led : s.leader q ≠ none)
    (early : r ≤ q) (kept : Kept s r k own (q + 1)) : Kept s r k next (q + 1) := by
  rcases adopts with ⟨-, rfl⟩ | ⟨conflict, rfl⟩
  · exact kept
  rcases kept with held | lost
  swap
  · exact Or.inr lost
  by_cases carried : (s.leaderLog r).take k <+: s.leaderLog q
  · left
    rcases List.prefix_or_prefix_of_prefix carried (List.take_prefix count _) with sub | sub
    · exact sub
    · exact absurd (sub.trans held) conflict
  · right
    refine ⟨q, ?_, Nat.lt_succ_self q, led, carried⟩
    rcases Nat.lt_or_eq_of_le early with later | rfl
    · exact later
    · exact absurd (List.take_prefix k _) carried

end Stability

/-! ## Preservation -/

section Preservation

variable {N : Type u} {V : Type v} [Fintype N] [DecidableEq N]

/-- Only the acknowledgement of a node's own round can move. -/
theorem Step.acked_eq {j : N} {s t : State N V} (step : Step j s t) {v : N} {r : Nat}
    (apart : ¬ (v = j ∧ r = s.round j)) : t.acked v r = s.acked v r := by
  cases step <;> simp [record, apart]

omit [DecidableEq N] in
/-- A voter has left every round before the one it voted in. -/
theorem Ballots.past {s : State N V} (ballots : Ballots s) {j v c : N} {r q : Nat}
    (voted : s.vote v q = some c) (early : r < q) : ¬ (v = j ∧ r = s.round j) := by
  rintro ⟨rfl, rfl⟩
  exact absurd (ballots.vote_le v q c voted) (Nat.not_le.mpr early)

/-! The clauses for the part of the record that a step does not touch. -/

theorem Retention.log_mono {j : N} {s t : State N V} (retention : Retention s) (logs : Logs s)
    (step : Step j s t) (extension : Extends s t) {v : N} {r k : Nat}
    (apart : ¬ (v = j ∧ r = s.round j)) (acked : k ≤ t.acked v r) (grows : s.log v <+: t.log v) :
    Kept t r k (t.log v) (t.round v + 1) := by
  rw [step.acked_eq apart] at acked
  exact (retention.log v r k acked).mono extension logs (acked.trans (logs.acked_le v r)) grows
    (Nat.succ_le_succ (extension.round v))

theorem Retention.vote_mono {j : N} {s t : State N V} (retention : Retention s)
    (ballots : Ballots s) (logs : Logs s) (step : Step j s t) (extension : Extends s t) {v c : N}
    {r q k : Nat} (candidate : List (Entry V)) (vacant : t.leader q = none)
    (voted : s.vote v q = some c) (stands : s.candidacy c q = some candidate) (early : r < q)
    (acked : k ≤ t.acked v r) (binding : Binding t v c r k) : Kept t r k candidate q := by
  have vacantBefore : s.leader q = none := by
    by_contra led
    exact extension.leader_ne_none led vacant
  rw [step.acked_eq (ballots.past voted early)] at acked
  have le := acked.trans (logs.acked_le v r)
  have before := retention.vote v c r q k candidate vacantBefore voted stands early acked
    (extension.binding logs le binding)
  exact before.mono extension logs le (List.prefix_refl _) le_rfl

theorem Retention.elected_mono {j : N} {s t : State N V} (retention : Retention s)
    (ballots : Ballots s) (logs : Logs s) (step : Step j s t) (extension : Extends s t) {q : Nat}
    {c : N} (leads : s.leader q = some c) (positive : 0 < q) :
    ∃ voters, IsQuorum voters ∧ c ∈ voters ∧ ∀ v ∈ voters, t.vote v q = some c ∧
      ∀ r k, r < q → k ≤ t.acked v r → Binding t v c r k → Kept t r k (t.leaderLog q) q := by
  obtain ⟨voters, quorum, member, facts⟩ := retention.elected q c leads positive
  refine ⟨voters, quorum, member, ?_⟩
  intro v voter
  obtain ⟨voted, carries⟩ := facts v voter
  refine ⟨extension.vote v q c voted, ?_⟩
  intro r k early acked binding
  rw [step.acked_eq (ballots.past voted early)] at acked
  have le := acked.trans (logs.acked_le v r)
  exact (carries r k early acked (extension.binding logs le binding)).mono extension logs le
    (extension.leaderLog_isPrefix (by simp [leads])) le_rfl

/-! One clause after the other, for every kind of step. -/

theorem Retention.log_step {j : N} {s t : State N V} (retention : Retention s) (logs : Logs s)
    (step : Step j s t) (extension : Extends s t) (v : N) (r k : Nat) (acked : k ≤ t.acked v r) :
    Kept t r k (t.log v) (t.round v + 1) := by
  have frame := fun {v r} => step.acked_eq (v := v) (r := r)
  have oldLog := fun {v r k} =>
    retention.log_mono (v := v) (r := r) (k := k) logs step extension
  cases step with
  | advance r le =>
      exact (retention.log v _ k acked).mono extension logs (acked.trans (logs.acked_le _ _))
        (List.prefix_refl _) (Nat.succ_le_succ (extension.round v))
  | stand =>
      exact (retention.log v _ k acked).mono extension logs (acked.trans (logs.acked_le _ _))
        (List.prefix_refl _) (Nat.succ_le_succ (extension.round v))
  | grant c candidate free stands upToDate => exact retention.log v r k acked
  | elect voters quorum granted stands fresh =>
      by_cases here : v = j ∧ r = s.round j
      · obtain ⟨rfl, rfl⟩ := here
        left
        simp only [Function.update_self]
        exact List.take_prefix _ _
      · exact oldLog here acked (List.prefix_refl _)
  | append value leads =>
      by_cases here : v = j ∧ r = s.round j
      · obtain ⟨rfl, rfl⟩ := here
        left
        simp only [Function.update_self]
        exact List.take_prefix _ _
      · apply oldLog here acked
        by_cases equal : v = j
        · subst v
          simp
        · simp [equal]
  | accept l count next leads other le adopts =>
      have led : s.leader (s.round j) ≠ none := by simp [leads]
      by_cases equal : v = j
      · subst v
        simp only [Function.update_self]
        rcases Nat.eq_zero_or_pos k with rfl | positive
        · exact kept_zero _ _ _ _
        by_cases here : r = s.round j
        · subst r
          simp only [record, and_self, if_true] at acked
          rcases Nat.lt_or_ge (s.acked j (s.round j)) k with new | old
          · -- The adopted batch itself is held afterwards.
            have within : k ≤ count := by omega
            have sub : (s.leaderLog (s.round j)).take k <+:
                (s.leaderLog (s.round j)).take count := List.take_prefix_take_left within
            rcases adopts with ⟨held, rfl⟩ | ⟨-, rfl⟩
            · exact Or.inl (sub.trans held)
            · exact Or.inl sub
          · exact adopts.kept led le_rfl (retention.log j _ k old)
        · rw [frame fun both => here both.2] at acked
          have early := logs.acked_round j r (by omega)
          exact adopts.kept led early (retention.log j r k acked)
      · apply oldLog (fun both => equal both.1) acked
        simp [equal]

theorem Retention.vote_step {j : N} {s t : State N V} (retention : Retention s)
    (ballots : Ballots s) (logs : Logs s) (step : Step j s t) (extension : Extends s t) (v c : N)
    (r q k : Nat) (log : List (Entry V)) (vacant : t.leader q = none)
    (voted : t.vote v q = some c) (stood : t.candidacy c q = some log) (early : r < q)
    (acked : k ≤ t.acked v r) (binding : Binding t v c r k) : Kept t r k log q := by
  have oldVote := fun {v c r q k} {candidate : List (Entry V)} =>
    retention.vote_mono (v := v) (c := c) (r := r) (q := q) (k := k) ballots logs step extension
      candidate
  cases step with
  | advance r le => exact oldVote vacant voted stood early acked binding
  | stand =>
      rcases record_some_cases voted with ⟨rfl, rfl, rfl⟩ | votedBefore
      · -- The new vote is the candidate's own.
        simp only [record, and_self, if_true, Option.some.injEq] at stood
        subst log
        exact (retention.log v r k acked).mono extension logs (acked.trans (logs.acked_le _ _))
          (List.prefix_refl _) le_rfl
      · rcases record_some_cases stood with ⟨rfl, rfl, -⟩ | stoodBefore
        · exfalso
          have earlier := ballots.vote_stands v _ c votedBefore (Nat.succ_pos _)
          obtain ⟨log, old⟩ := Option.ne_none_iff_exists'.mp earlier
          have bound := ballots.vote_le c _ c (ballots.candidacy_vote c _ log old)
          omega
        · exact oldVote vacant votedBefore stoodBefore early acked binding
  | grant d candidate free stands upToDate =>
      rcases record_some_cases voted with ⟨rfl, rfl, rfl⟩ | voted
      · obtain rfl : candidate = log := Option.some.inj (stands.symm.trans stood)
        rcases binding with endRound | rfl
        · rcases retention.log v r k acked with held | ⟨p, later, below, led, lacks⟩
          · exact upToDate.kept logs (logs.candidacy_wellFormed d _ candidate stands)
              (logs.log_wellFormed v) (logs.candidacy_lt d _ candidate stands)
              (acked.trans (logs.acked_le _ _)) endRound held
          · -- The office of this round is vacant, so the loss is older.
            right
            refine ⟨p, later, ?_, led, lacks⟩
            rcases Nat.lt_or_eq_of_le (Nat.le_of_lt_succ below) with older | rfl
            · exact older
            · exact absurd vacant led
        · have own := ballots.candidacy_vote v _ candidate stands
          rw [free] at own
          contradiction
      · exact oldVote vacant voted stood early acked binding
  | elect voters quorum granted stands fresh =>
      exact oldVote vacant voted stood early acked binding
  | append value leads => exact oldVote vacant voted stood early acked binding
  | accept l count next leads other le adopts =>
      exact oldVote vacant voted stood early acked binding

theorem Retention.elected_step {j : N} {s t : State N V} (retention : Retention s)
    (ballots : Ballots s) (logs : Logs s) (step : Step j s t) (extension : Extends s t) (q : Nat)
    (c : N) (leads : t.leader q = some c) (positive : 0 < q) :
    ∃ voters, IsQuorum voters ∧ c ∈ voters ∧ ∀ v ∈ voters, t.vote v q = some c ∧
      ∀ r k, r < q → k ≤ t.acked v r → Binding t v c r k → Kept t r k (t.leaderLog q) q := by
  have frame := fun {v r} => step.acked_eq (v := v) (r := r)
  have oldElected := fun {q c} =>
    retention.elected_mono (q := q) (c := c) ballots logs step extension
  cases step with
  | advance r le => exact oldElected leads positive
  | stand => exact oldElected leads positive
  | grant d candidate free stands upToDate => exact oldElected leads positive
  | elect voters quorum granted stands fresh =>
      have vacant := ballots.vacant quorum granted stands fresh
      rcases update_some_cases leads with ⟨rfl, rfl⟩ | leads
      · have ownVote := ballots.candidacy_vote j _ _ stands
        refine ⟨insert j voters, ?_, Finset.mem_insert_self j voters, ?_⟩
        · exact quorum.trans (Finset.card_le_card (Finset.subset_insert j voters))
        · intro v member
          have voted : s.vote v (s.round j) = some j := by
            rcases Finset.mem_insert.mp member with rfl | member
            · exact ownVote
            · exact granted v member
          refine ⟨voted, ?_⟩
          intro r k early acked binding
          rw [frame (ballots.past voted early)] at acked
          have le := acked.trans (logs.acked_le v r)
          simp only [Function.update_self]
          exact (retention.vote v j r _ k _ vacant voted stands early acked
            (extension.binding logs le binding)).mono extension logs le (List.prefix_refl _) le_rfl
      · exact oldElected leads positive
  | append value leader => exact oldElected leads positive
  | accept l count next leader other le adopts => exact oldElected leads positive

theorem Retention.step {j : N} {s t : State N V} (retention : Retention s)
    (ballots : Ballots s) (logs : Logs s) (step : Step j s t) (extension : Extends s t) :
    Retention t where
  log := retention.log_step logs step extension
  vote := retention.vote_step ballots logs step extension
  elected := retention.elected_step ballots logs step extension

/-! ## The whole invariant -/

theorem Invariant.step {j : N} {s t : State N V} (invariant : Invariant s) (step : Step j s t) :
    Invariant t :=
  have extension := step.extends invariant.ballots invariant.logs
  ⟨invariant.ballots.step step extension, invariant.logs.step invariant.ballots step extension,
    invariant.retention.step invariant.ballots invariant.logs step extension⟩

/-- Any number of steps preserves the invariant and only adds to the record. -/
theorem Invariant.steps {j : N} {s t : State N V} (invariant : Invariant s)
    (steps : Steps j s t) : Invariant t ∧ Extends s t := by
  induction steps with
  | refl => exact ⟨invariant, Extends.refl s⟩
  | tail _ step ih =>
      obtain ⟨middle, extension⟩ := ih
      exact ⟨middle.step step, extension.trans (step.extends middle.ballots middle.logs)⟩

theorem invariant_initial (first : N) : Invariant (State.initial first : State N V) := by
  have vote_round : ∀ v r c, (State.initial first : State N V).vote v r = some c → r = 0 := by
    intro v r c voted
    by_contra later
    simp [State.initial, record, later] at voted
  have leader_round : ∀ r c, (State.initial first : State N V).leader r = some c → r = 0 := by
    intro r c leads
    by_contra later
    simp [State.initial, later] at leads
  refine ⟨?_, ?_, ?_⟩
  · constructor
    · exact fun v r c voted => (vote_round v r c voted).le
    · intro v r c voted positive
      exact absurd (vote_round v r c voted) positive.ne'
    · intro c r log stands
      simp [State.initial] at stands
    · intro c r log stands
      simp [State.initial] at stands
    · exact fun r c leads => (leader_round r c leads).le
    · intro r c leads positive
      exact absurd (leader_round r c leads) positive.ne'
  · constructor
    · exact fun _ _ => rfl
    · exact fun _ _ => rfl
    · exact fun _ => wellFormed_nil _
    · intro v entry member
      simp [State.initial] at member
    · exact fun _ => wellFormed_nil _
    · intro r entry member
      simp [State.initial] at member
    · intro c r log stands
      simp [State.initial] at stands
    · intro c r log stands
      simp [State.initial] at stands
    · exact fun _ _ => le_rfl
    · intro v r positive
      simp [State.initial] at positive
    · exact fun _ _ _ => rfl
  · constructor
    · intro v r k le
      obtain rfl : k = 0 := Nat.le_zero.mp le
      exact kept_zero _ _ _ _
    · intro v c r q k candidate vacant voted stands
      simp [State.initial] at stands
    · intro q c leads positive
      exact absurd (leader_round q c leads) positive.ne'

end Preservation

end DoomDraft.Consensus
