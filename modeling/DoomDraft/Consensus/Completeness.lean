import DoomDraft.Consensus.Retention

/-!
# Leader completeness

A chosen slot is in the log of every later leader, because the quorum that
acknowledged it meets the quorum that elected the leader.  The same holds for a
slot that every node has acknowledged, whatever its round, since then the
leader itself had it.
-/

namespace DoomDraft.Consensus

universe u v

variable {N : Type u} {V : Type v} [Fintype N]

/-- Every electorate has a voter that acknowledged slot `k` of round `r` in a
binding way. -/
def Secured (s : State N V) (r k : Nat) : Prop :=
  k ≤ (s.leaderLog r).length ∧ ∀ c voters, IsQuorum voters → c ∈ voters →
    ∃ v ∈ voters, k ≤ s.acked v r ∧ Binding s v c r k

theorem Chosen.secured {s : State N V} [DecidableEq N] {r k : Nat} (chosen : Chosen s r k) :
    Secured s r k := by
  obtain ⟨-, le, endRound, nodes, quorum, acked⟩ := chosen
  refine ⟨le, ?_⟩
  intro c voters electorate _
  obtain ⟨v, member, voter⟩ := quorum.exists_common electorate
  exact ⟨v, voter, acked v member, Or.inl endRound⟩

/-- Every later leader has the first `k` entries of a secured slot. -/
theorem Secured.isPrefix {s : State N V} (invariant : Invariant s) {r k q : Nat}
    (secured : Secured s r k) (early : r ≤ q) (led : s.leader q ≠ none) :
    (s.leaderLog r).take k <+: s.leaderLog q := by
  induction q using Nat.strong_induction_on with
  | _ q ih =>
      rcases Nat.lt_or_eq_of_le early with later | rfl
      · obtain ⟨c, leads⟩ := Option.ne_none_iff_exists'.mp led
        obtain ⟨voters, quorum, self, facts⟩ :=
          invariant.retention.elected q c leads (by omega)
        obtain ⟨v, voter, acked, binding⟩ := secured.2 c voters quorum self
        rcases (facts v voter).2 r k later acked binding with held | lost
        · exact held
        · -- A leader in between would have lost the slot, against the induction.
          obtain ⟨p, afterR, beforeQ, ledBetween, lacks⟩ := lost
          exact absurd (ih p beforeQ afterR.le ledBetween) lacks
      · exact List.take_prefix k _

theorem Chosen.mono {s t : State N V} (extension : Extends s t) (logs : Logs s) {r k : Nat}
    (chosen : Chosen s r k) : Chosen t r k := by
  obtain ⟨positive, le, endRound, nodes, quorum, acked⟩ := chosen
  have leLength : k ≤ (t.leaderLog r).length := by
    have taken := congrArg List.length (extension.take_eq logs le)
    rw [List.length_take, List.length_take_of_le le] at taken
    omega
  refine ⟨positive, leLength, (extension.roundAt_eq logs le).trans endRound, nodes, quorum, ?_⟩
  exact fun v member => (acked v member).trans (extension.acked v r)

/-- Two chosen slots agree on every slot that both cover. -/
theorem Chosen.entryAt_eq [DecidableEq N] {s : State N V} (invariant : Invariant s)
    {r k q m slot : Nat} (first : Chosen s r k) (second : Chosen s q m)
    (leFirst : slot ≤ k) (leSecond : slot ≤ m) :
    entryAt (s.leaderLog r) slot = entryAt (s.leaderLog q) slot := by
  have led : ∀ {p l}, Chosen s p l → s.leader p ≠ none := by
    intro p l chosen vacant
    obtain ⟨positive, le, -⟩ := chosen
    rw [invariant.logs.unled p vacant] at le
    simp only [List.length_nil] at le
    omega
  have carried : ∀ {p l p' l'}, Chosen s p l → Chosen s p' l' → p ≤ p' → slot ≤ l →
      entryAt (s.leaderLog p) slot = entryAt (s.leaderLog p') slot := by
    intro p l p' l' chosen chosen' early le
    have isPrefix := chosen.secured.isPrefix invariant early (led chosen')
    obtain ⟨more, moreEq⟩ := isPrefix
    have length : slot ≤ ((s.leaderLog p).take l).length := by
      rw [List.length_take_of_le chosen.2.1]
      exact le
    rw [← moreEq, entryAt_append_of_le length, entryAt_take, if_pos le]
  rcases Nat.le_total r q with early | early
  · exact carried first second early leFirst
  · exact (carried second first early leSecond).symm

/-! ## Slots that every node has acknowledged -/

/-- Every node has acknowledged the first `k` entries of the leader of round
`r`. -/
def Shared (s : State N V) (r k : Nat) : Prop :=
  ∀ v, k ≤ s.acked v r

omit [Fintype N] in
theorem Shared.of_le {s : State N V} {r k l : Nat} (shared : Shared s r k) (le : l ≤ k) :
    Shared s r l :=
  fun v => le.trans (shared v)

omit [Fintype N] in
theorem Shared.mono {s t : State N V} {r k : Nat} (shared : Shared s r k)
    (extension : Extends s t) : Shared t r k :=
  fun v => (shared v).trans (extension.acked v r)

/-- What every node has acknowledged is in the log of every node. -/
theorem Shared.isPrefix {s : State N V} (invariant : Invariant s) {r k : Nat}
    (shared : Shared s r k) (v : N) : (s.leaderLog r).take k <+: s.log v := by
  have bound : k ≤ (s.leaderLog r).length := (shared v).trans (invariant.logs.acked_le v r)
  have secured : Secured s r k :=
    ⟨bound, fun c voters _ voter => ⟨c, voter, shared c, Or.inr rfl⟩⟩
  rcases invariant.retention.log v r k (shared v) with held | lost
  · exact held
  · obtain ⟨q, later, -, led, lacks⟩ := lost
    exact absurd (secured.isPrefix invariant later.le led) lacks

/-- Two logs agree on the slots that every node has acknowledged. -/
theorem Shared.take_eq {s : State N V} (invariant : Invariant s) {r k : Nat}
    (shared : Shared s r k) (v w : N) :
    k ≤ (s.log v).length ∧ (s.log v).take k = (s.log w).take k := by
  have bound : k ≤ (s.leaderLog r).length := (shared v).trans (invariant.logs.acked_le v r)
  have taken : ∀ u, k ≤ (s.log u).length ∧ (s.log u).take k = (s.leaderLog r).take k := by
    intro u
    have isPrefix := shared.isPrefix invariant u
    have length := isPrefix.length_le
    rw [List.length_take_of_le bound] at length
    refine ⟨length, ?_⟩
    rw [List.prefix_iff_eq_take.mp isPrefix, List.length_take_of_le bound]
  exact ⟨(taken v).1, (taken v).2.trans (taken w).2.symm⟩

end DoomDraft.Consensus
