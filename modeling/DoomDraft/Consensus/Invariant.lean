import DoomDraft.Consensus.Core

/-!
# Invariants of log replication

Three groups of facts are preserved by every step.  `Ballots` says who may vote
and lead in which round.  `Logs` says that a log agrees with the log of the
leader of any of its rounds up to the entry of that round, which is log
matching.  `Retention` says what becomes of an acknowledged prefix: it is still
there, or a later leader was elected without it.
-/

namespace DoomDraft.Consensus

universe u v

variable {N : Type u} {V : Type v}

/-- Each entry of the log closes a prefix that is also a prefix of the log of
the leader of the entry's round. -/
def WellFormed (s : State N V) (log : List (Entry V)) : Prop :=
  ∀ slot entry, entryAt log slot = some entry →
    s.leader entry.round ≠ none ∧ log.take slot <+: s.leaderLog entry.round

/-- A leader of a round after `r` and before `bound` lacks the first `k`
entries of the leader of round `r`. -/
def Lost (s : State N V) (r k bound : Nat) : Prop :=
  ∃ q, r < q ∧ q < bound ∧ s.leader q ≠ none ∧
    ¬ (s.leaderLog r).take k <+: s.leaderLog q

/-- The log holds the first `k` entries of the leader of round `r`, unless an
intermediate leader has lost them. -/
def Kept (s : State N V) (r k : Nat) (log : List (Entry V)) (bound : Nat) : Prop :=
  (s.leaderLog r).take k <+: log ∨ Lost s r k bound

theorem WellFormed.of_isPrefix {s : State N V} {shorter longer : List (Entry V)}
    (wellFormed : WellFormed s longer) (isPrefix : shorter <+: longer) :
    WellFormed s shorter := by
  intro slot entry found
  obtain ⟨led, taken⟩ := wellFormed slot entry (entryAt_of_isPrefix isPrefix found)
  obtain ⟨more, rfl⟩ := isPrefix
  rw [List.take_append_of_le_length (entryAt_bounds found).2] at taken
  exact ⟨led, taken⟩

theorem wellFormed_nil (s : State N V) : WellFormed s [] := by
  intro slot entry found
  obtain ⟨positive, le⟩ := entryAt_bounds found
  simp only [List.length_nil] at le
  omega

/-- Log matching: two well-formed logs with entries of one round at one slot
agree up to that slot. -/
theorem WellFormed.take_eq {s : State N V} {left right : List (Entry V)} {slot : Nat}
    {leftEntry rightEntry : Entry V} (leftWellFormed : WellFormed s left)
    (rightWellFormed : WellFormed s right) (leftFound : entryAt left slot = some leftEntry)
    (rightFound : entryAt right slot = some rightEntry)
    (roundEq : leftEntry.round = rightEntry.round) :
    left.take slot = right.take slot := by
  have leftPrefix := (leftWellFormed slot leftEntry leftFound).2
  have rightPrefix := (rightWellFormed slot rightEntry rightFound).2
  rw [← roundEq] at rightPrefix
  have leftLength : (left.take slot).length = slot :=
    List.length_take_of_le (entryAt_bounds leftFound).2
  have rightLength : (right.take slot).length = slot :=
    List.length_take_of_le (entryAt_bounds rightFound).2
  have sub := List.prefix_of_prefix_length_le leftPrefix rightPrefix
    (leftLength.trans rightLength.symm).le
  exact sub.eq_of_length (leftLength.trans rightLength.symm)

/-! ## Growth of the record -/

/-- The record of `t` contains the record of `s`. -/
structure Extends (s t : State N V) : Prop where
  round : ∀ v, s.round v ≤ t.round v
  vote : ∀ v r c, s.vote v r = some c → t.vote v r = some c
  candidacy : ∀ c r log, s.candidacy c r = some log → t.candidacy c r = some log
  leader : ∀ r c, s.leader r = some c → t.leader r = some c
  leaderLog : ∀ r, s.leader r ≠ none →
    ∃ more, t.leaderLog r = s.leaderLog r ++ more ∧ ∀ entry ∈ more, entry.round = r
  acked : ∀ v r, s.acked v r ≤ t.acked v r

namespace Extends

theorem refl (s : State N V) : Extends s s where
  round _ := le_rfl
  vote _ _ _ voted := voted
  candidacy _ _ _ stands := stands
  leader _ _ leads := leads
  leaderLog _ _ := ⟨[], (List.append_nil _).symm, by simp⟩
  acked _ _ := le_rfl

theorem leader_ne_none {s t : State N V} (extension : Extends s t) {r : Nat}
    (led : s.leader r ≠ none) : t.leader r ≠ none := by
  obtain ⟨c, leads⟩ := Option.ne_none_iff_exists'.mp led
  rw [extension.leader r c leads]
  simp

theorem trans {s t w : State N V} (first : Extends s t) (second : Extends t w) :
    Extends s w where
  round v := (first.round v).trans (second.round v)
  vote v r c voted := second.vote v r c (first.vote v r c voted)
  candidacy c r log stands := second.candidacy c r log (first.candidacy c r log stands)
  leader r c leads := second.leader r c (first.leader r c leads)
  leaderLog r led := by
    obtain ⟨more, moreEq, moreRound⟩ := first.leaderLog r led
    obtain ⟨rest, restEq, restRound⟩ := second.leaderLog r (first.leader_ne_none led)
    refine ⟨more ++ rest, by rw [restEq, moreEq, List.append_assoc], ?_⟩
    intro entry member
    rcases List.mem_append.mp member with member | member
    · exact moreRound entry member
    · exact restRound entry member
  acked v r := (first.acked v r).trans (second.acked v r)

theorem leaderLog_isPrefix {s t : State N V} (extension : Extends s t) {r : Nat}
    (led : s.leader r ≠ none) : s.leaderLog r <+: t.leaderLog r := by
  obtain ⟨more, moreEq, -⟩ := extension.leaderLog r led
  exact ⟨more, moreEq.symm⟩

theorem wellFormed {s t : State N V} (extension : Extends s t) {log : List (Entry V)}
    (wellFormed : WellFormed s log) : WellFormed t log := by
  intro slot entry found
  obtain ⟨led, isPrefix⟩ := wellFormed slot entry found
  exact ⟨extension.leader_ne_none led, isPrefix.trans (extension.leaderLog_isPrefix led)⟩

end Extends

/-- Between `s` and `t` only node `j` has acted. -/
structure Frame (j : N) (s t : State N V) : Prop where
  round : ∀ v, v ≠ j → t.round v = s.round v
  log : ∀ v, v ≠ j → t.log v = s.log v
  vote : ∀ v, v ≠ j → t.vote v = s.vote v
  candidacy : ∀ v, v ≠ j → t.candidacy v = s.candidacy v
  leader : ∀ v r, v ≠ j → t.leader r = some v → s.leader r = some v

theorem Frame.refl (j : N) (s : State N V) : Frame j s s where
  round _ _ := rfl
  log _ _ := rfl
  vote _ _ := rfl
  candidacy _ _ := rfl
  leader _ _ _ leads := leads

theorem Frame.trans {j : N} {s t w : State N V} (first : Frame j s t) (second : Frame j t w) :
    Frame j s w where
  round v other := (second.round v other).trans (first.round v other)
  log v other := (second.log v other).trans (first.log v other)
  vote v other := (second.vote v other).trans (first.vote v other)
  candidacy v other := (second.candidacy v other).trans (first.candidacy v other)
  leader v r other leads := first.leader v r other (second.leader v r other leads)

/-! ## The invariants -/

section Invariants

variable [Fintype N]

/-- Votes, candidacies and offices. -/
structure Ballots (s : State N V) : Prop where
  vote_le : ∀ v r c, s.vote v r = some c → r ≤ s.round v
  vote_stands : ∀ v r c, s.vote v r = some c → 0 < r → s.candidacy c r ≠ none
  candidacy_pos : ∀ c r log, s.candidacy c r = some log → 0 < r
  candidacy_vote : ∀ c r log, s.candidacy c r = some log → s.vote c r = some c
  leader_le : ∀ r c, s.leader r = some c → r ≤ s.round c
  leader_votes : ∀ r c, s.leader r = some c → 0 < r →
    ∃ voters, IsQuorum voters ∧ ∀ v ∈ voters, s.vote v r = some c

/-- Contents and rounds of logs. -/
structure Logs (s : State N V) : Prop where
  leads : ∀ c, s.leader (s.round c) = some c → s.log c = s.leaderLog (s.round c)
  unled : ∀ r, s.leader r = none → s.leaderLog r = []
  log_wellFormed : ∀ v, WellFormed s (s.log v)
  log_le : ∀ v, ∀ entry ∈ s.log v, entry.round ≤ s.round v
  leaderLog_wellFormed : ∀ r, WellFormed s (s.leaderLog r)
  leaderLog_le : ∀ r, ∀ entry ∈ s.leaderLog r, entry.round ≤ r
  candidacy_wellFormed : ∀ c r log, s.candidacy c r = some log → WellFormed s log
  candidacy_lt : ∀ c r log, s.candidacy c r = some log → ∀ entry ∈ log, entry.round < r
  acked_le : ∀ v r, s.acked v r ≤ (s.leaderLog r).length
  acked_round : ∀ v r, 0 < s.acked v r → r ≤ s.round v
  acked_leader : ∀ r c, s.leader r = some c → s.acked c r = (s.leaderLog r).length

/-- The acknowledged prefix of round `r` up to `k` survives the vote of `v` for
`c`: it ends with an entry of round `r` itself, or `v` is the candidate. -/
def Binding (s : State N V) (v c : N) (r k : Nat) : Prop :=
  roundAt (s.leaderLog r) k = r ∨ v = c

/-- What becomes of acknowledged prefixes. -/
structure Retention (s : State N V) : Prop where
  log : ∀ v r k, k ≤ s.acked v r → Kept s r k (s.log v) (s.round v + 1)
  vote : ∀ v c r q k candidate, s.leader q = none → s.vote v q = some c →
    s.candidacy c q = some candidate → r < q → k ≤ s.acked v r → Binding s v c r k →
    Kept s r k candidate q
  elected : ∀ q c, s.leader q = some c → 0 < q → ∃ voters, IsQuorum voters ∧ c ∈ voters ∧
    ∀ v ∈ voters, s.vote v q = some c ∧ ∀ r k, r < q → k ≤ s.acked v r → Binding s v c r k →
      Kept s r k (s.leaderLog q) q

/-- All invariants of log replication. -/
structure Invariant (s : State N V) : Prop where
  ballots : Ballots s
  logs : Logs s
  retention : Retention s

end Invariants

end DoomDraft.Consensus
