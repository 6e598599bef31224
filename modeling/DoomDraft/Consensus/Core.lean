import Mathlib.Data.Fintype.Card
import Mathlib.Logic.Function.Basic
import Mathlib.Logic.Relation
import Mathlib.Tactic.Common

/-!
# Leader-based log replication, abstractly

Nodes agree on a log through numbered rounds.  In a round a node may stand for
leader with the log it then holds, grant one vote, be elected by a quorum,
append to its log as leader, or adopt a prefix of the log of the leader of its
round.  There are no messages: the state remembers every vote, every candidacy,
the log of every leader and how much of it each node has acknowledged, and an
implementation with messages refers to those records instead.

Logs are lists of entries and slots count from one.
-/

namespace DoomDraft.Consensus

universe u v

/-- A log entry: a value and the round whose leader created it. -/
structure Entry (V : Type v) where
  round : Nat
  value : V
  deriving DecidableEq

/-- The entry at a slot; slot 0 holds nothing. -/
def entryAt {V : Type v} (log : List (Entry V)) : Nat → Option (Entry V)
  | 0 => none
  | slot + 1 => log[slot]?

/-- The round of the entry at a slot, and 0 where there is none. -/
def roundAt {V : Type v} (log : List (Entry V)) (slot : Nat) : Nat :=
  ((entryAt log slot).map Entry.round).getD 0

/-- The round of the last entry, and 0 for the empty log. -/
def lastRound {V : Type v} (log : List (Entry V)) : Nat :=
  roundAt log log.length

/-- The voting rule: a candidate's log ends in a later round, or in the same
round and is at least as long. -/
def UpToDate {V : Type v} (candidate own : List (Entry V)) : Prop :=
  lastRound own < lastRound candidate ∨
    lastRound own = lastRound candidate ∧ own.length ≤ candidate.length

/-- The log after adopting `batch`: unchanged when it already extends the
batch, and cut down to the batch otherwise. -/
def Adopts {V : Type v} (batch own next : List (Entry V)) : Prop :=
  batch <+: own ∧ next = own ∨ ¬ batch <+: own ∧ next = batch

theorem Adopts.batch_isPrefix {V : Type v} {batch own next : List (Entry V)}
    (adopts : Adopts batch own next) : batch <+: next := by
  rcases adopts with ⟨held, rfl⟩ | ⟨-, rfl⟩
  · exact held
  · exact List.prefix_rfl

/-- A log that goes beyond the batch is the original log. -/
theorem Adopts.eq_own_of_length {V : Type v} {batch own next : List (Entry V)}
    (adopts : Adopts batch own next) (longer : batch.length < next.length) :
    batch <+: own ∧ next = own := by
  rcases adopts with unchanged | ⟨-, rfl⟩
  · exact unchanged
  · exact absurd longer (lt_irrefl _)

section Slots

variable {V : Type v} {log : List (Entry V)} {slot : Nat} {entry : Entry V}

theorem entryAt_eq_getElem? (positive : 0 < slot) : entryAt log slot = log[slot - 1]? := by
  obtain ⟨index, rfl⟩ := Nat.exists_eq_succ_of_ne_zero positive.ne'
  rfl

theorem entryAt_bounds (found : entryAt log slot = some entry) :
    0 < slot ∧ slot ≤ log.length := by
  cases slot with
  | zero => contradiction
  | succ index =>
      obtain ⟨below, -⟩ := List.getElem?_eq_some_iff.mp found
      exact ⟨Nat.succ_pos index, below⟩

theorem mem_of_entryAt (found : entryAt log slot = some entry) : entry ∈ log := by
  cases slot with
  | zero => contradiction
  | succ index => exact List.mem_of_getElem? found

theorem exists_entryAt (positive : 0 < slot) (le : slot ≤ log.length) :
    ∃ entry, entryAt log slot = some entry := by
  rw [entryAt_eq_getElem? positive]
  exact ⟨_, List.getElem?_eq_getElem (by omega)⟩

theorem roundAt_of_entryAt (found : entryAt log slot = some entry) :
    roundAt log slot = entry.round := by
  simp [roundAt, found]

theorem entryAt_take (count : Nat) :
    entryAt (log.take count) slot = if slot ≤ count then entryAt log slot else none := by
  cases slot with
  | zero => simp [entryAt]
  | succ index => simp only [entryAt, List.getElem?_take, Nat.succ_le_iff]

theorem entryAt_append_of_le {more : List (Entry V)} (le : slot ≤ log.length) :
    entryAt (log ++ more) slot = entryAt log slot := by
  cases slot with
  | zero => rfl
  | succ index => exact List.getElem?_append_left le

theorem entryAt_of_isPrefix {longer : List (Entry V)} (isPrefix : log <+: longer)
    (found : entryAt log slot = some entry) : entryAt longer slot = some entry := by
  obtain ⟨more, rfl⟩ := isPrefix
  rw [entryAt_append_of_le (entryAt_bounds found).2, found]

theorem entryAt_eq_of_take_eq {other : List (Entry V)} {count : Nat}
    (same : log.take count = other.take count) (le : slot ≤ count) :
    entryAt log slot = entryAt other slot := by
  have taken := congrArg (fun list => entryAt list slot) same
  simpa [entryAt_take, le] using taken

end Slots

/-- A majority of all nodes. -/
def IsQuorum {N : Type u} [Fintype N] (nodes : Finset N) : Prop :=
  Fintype.card N / 2 + 1 ≤ nodes.card

/-- Any two quorums share a node. -/
theorem IsQuorum.exists_common {N : Type u} [Fintype N] [DecidableEq N]
    {first second : Finset N} (firstQuorum : IsQuorum first) (secondQuorum : IsQuorum second) :
    ∃ node, node ∈ first ∧ node ∈ second := by
  have overlap : (Finset.univ : Finset N).card < first.card + second.card := by
    unfold IsQuorum at firstQuorum secondQuorum
    rw [Finset.card_univ]
    omega
  obtain ⟨node, member⟩ := Finset.inter_nonempty_of_card_lt_card_add_card
    (Finset.subset_univ first) (Finset.subset_univ second) overlap
  exact ⟨node, Finset.mem_inter.mp member⟩

/-- The nodes and the record of the run so far. -/
structure State (N : Type u) (V : Type v) where
  round : N → Nat
  log : N → List (Entry V)
  vote : N → Nat → Option N
  candidacy : N → Nat → Option (List (Entry V))
  leader : Nat → Option N
  leaderLog : Nat → List (Entry V)
  acked : N → Nat → Nat

/-- Enter a value in a table indexed by node and round. -/
def record {N : Type u} [DecidableEq N] {α : Type v} (table : N → Nat → α) (j : N) (r : Nat)
    (value : α) : N → Nat → α :=
  fun v q => if v = j ∧ q = r then value else table v q

theorem record_of_ne {N : Type u} [DecidableEq N] {α : Type v} (table : N → Nat → α) {j v : N}
    (r : Nat) (value : α) (other : v ≠ j) : record table j r value v = table v := by
  funext q
  simp [record, other]

/-- What is entered in a table is the new value or was entered before. -/
theorem record_some_cases {N : Type u} [DecidableEq N] {α : Type v} {table : N → Nat → Option α}
    {j v : N} {r q : Nat} {value found : α}
    (entered : record table j r (some value) v q = some found) :
    (v = j ∧ q = r ∧ value = found) ∨ table v q = some found := by
  unfold record at entered
  split at entered
  · rename_i here
    exact Or.inl ⟨here.1, here.2, Option.some.inj entered⟩
  · exact Or.inr entered

theorem update_some_cases {α : Type v} {table : Nat → Option α} {r q : Nat} {value found : α}
    (entered : Function.update table r (some value) q = some found) :
    (q = r ∧ value = found) ∨ table q = some found := by
  rw [Function.update_apply] at entered
  split at entered
  · rename_i here
    exact Or.inl ⟨here, Option.some.inj entered⟩
  · exact Or.inr entered

/-- Every node starts with the empty log in round 0, whose leader holds office
without an election. -/
def State.initial {N : Type u} {V : Type v} [DecidableEq N] (first : N) : State N V where
  round := fun _ => 0
  log := fun _ => []
  vote := record (fun _ _ => none) first 0 (some first)
  candidacy := fun _ _ => none
  leader := Function.update (fun _ => none) 0 (some first)
  leaderLog := fun _ => []
  acked := fun _ _ => 0

section Step

variable {N : Type u} {V : Type v} [Fintype N] [DecidableEq N]

/-- One step of node `j`. -/
inductive Step (j : N) (s : State N V) : State N V → Prop
  /-- Move on to a later round. -/
  | advance (r : Nat) (le : s.round j ≤ r) :
      Step j s { s with round := Function.update s.round j r }
  /-- Stand for leader of the next round, voting for oneself. -/
  | stand :
      Step j s
        { s with
          round := Function.update s.round j (s.round j + 1)
          vote := record s.vote j (s.round j + 1) (some j)
          candidacy := record s.candidacy j (s.round j + 1) (some (s.log j)) }
  /-- Grant the vote of the current round to a candidate. -/
  | grant (c : N) (candidate : List (Entry V))
      (free : s.vote j (s.round j) = none)
      (stands : s.candidacy c (s.round j) = some candidate)
      (upToDate : UpToDate candidate (s.log j)) :
      Step j s
        { s with vote := record s.vote j (s.round j) (some c) }
  /-- Take office with the votes of a quorum. -/
  | elect (voters : Finset N) (quorum : IsQuorum voters)
      (granted : ∀ v ∈ voters, s.vote v (s.round j) = some j)
      (stands : s.candidacy j (s.round j) = some (s.log j))
      (fresh : s.leader (s.round j) ≠ some j) :
      Step j s
        { s with
          leader := Function.update s.leader (s.round j) (some j)
          leaderLog := Function.update s.leaderLog (s.round j) (s.log j)
          acked := record s.acked j (s.round j) (s.log j).length }
  /-- Append a value as the leader of the current round. -/
  | append (value : V) (leads : s.leader (s.round j) = some j) :
      Step j s
        { s with
          log := Function.update s.log j (s.log j ++ [⟨s.round j, value⟩])
          leaderLog := Function.update s.leaderLog (s.round j)
            (s.log j ++ [⟨s.round j, value⟩])
          acked := record s.acked j (s.round j) ((s.log j).length + 1) }
  /-- Adopt and acknowledge the first `count` entries of the leader. -/
  | accept (l : N) (count : Nat) (next : List (Entry V))
      (leads : s.leader (s.round j) = some l) (other : l ≠ j)
      (le : count ≤ (s.leaderLog (s.round j)).length)
      (adopts : Adopts ((s.leaderLog (s.round j)).take count) (s.log j) next) :
      Step j s
        { s with
          log := Function.update s.log j next
          acked := record s.acked j (s.round j) (max (s.acked j (s.round j)) count) }

/-- Any number of steps of one node. -/
abbrev Steps (j : N) : State N V → State N V → Prop :=
  Relation.ReflTransGen (Step j)

/-- Slot `k` of the leader of round `r` is chosen: the leader created it in its
own round and a quorum acknowledged it. -/
def Chosen (s : State N V) (r k : Nat) : Prop :=
  0 < k ∧ k ≤ (s.leaderLog r).length ∧ roundAt (s.leaderLog r) k = r ∧
    ∃ nodes, IsQuorum nodes ∧ ∀ v ∈ nodes, k ≤ s.acked v r

end Step

end DoomDraft.Consensus
