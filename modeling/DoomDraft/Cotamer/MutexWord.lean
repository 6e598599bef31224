import Mathlib.Tactic.Common
import DoomDraft.Cotamer.Mutex

/-!
# The word of a mutex

What the word says of the locks that are held and of the first waiter, and what its
tests for one bit or another decide.
-/

namespace DoomDraft.Cotamer

/-! ## Words -/

/-- The word of a number. -/
def word (k : Nat) : LatchType :=
  BitVec.ofNat 32 k

theorem toNat_word {k : Nat} (small : k < 2 ^ 32) : (word k).toNat = k := by
  rw [word, BitVec.toNat_ofNat, Nat.mod_eq_of_lt small]

theorem word_add (j k : Nat) : word j + word k = word (j + k) :=
  (BitVec.ofNat_add j k).symm

theorem word_add_sub (j k : Nat) : word (j + k) - word k = word j := by
  rw [← word_add, BitVec.add_sub_cancel]

/-- A mask of low bits does not see what is above them. -/
theorem word_and {s low mask : Nat} (lowBits : low < 16) (maskBits : mask < 16)
    (small : 16 * s + low < 2 ^ 32) : word (16 * s + low) &&& word mask = word (low &&& mask) := by
  apply BitVec.eq_of_toNat_eq
  have below : low &&& mask ≤ mask := Nat.and_le_right
  have within : (16 * s + low) &&& mask ≤ mask := Nat.and_le_right
  rw [BitVec.toNat_and, toNat_word small, toNat_word (by omega), toNat_word (by omega)]
  calc (16 * s + low) &&& mask = ((16 * s + low) &&& mask) % 2 ^ 4 := by
        rw [Nat.mod_eq_of_lt (by omega)]
    _ = ((16 * s + low) % 2 ^ 4) &&& (mask % 2 ^ 4) := Nat.and_mod_two_pow
    _ = low &&& mask := by
        rw [Nat.mod_eq_of_lt (show mask < 2 ^ 4 from maskBits), Nat.mul_add_mod,
          Nat.mod_eq_of_lt lowBits]

/-- Clearing bits takes them away. -/
theorem and_not_eq_sub (x y : LatchType) : x &&& ~~~y = x - (x &&& y) := by
  have disjoint : (x &&& y) &&& (x &&& ~~~y) = 0#32 := by
    ext i
    simp only [BitVec.getElem_and, BitVec.getElem_not, BitVec.getElem_zero]
    cases x[i] <;> cases y[i] <;> rfl
  have parts : (x &&& y) + (x &&& ~~~y) = x := by
    rw [BitVec.add_eq_or_of_and_eq_zero _ _ disjoint]
    ext i
    simp only [BitVec.getElem_or, BitVec.getElem_and, BitVec.getElem_not]
    cases x[i] <;> cases y[i] <;> rfl
  exact eq_sub_of_add_eq ((BitVec.add_comm _ _).trans parts)

theorem and_part {x mask part : LatchType} (clear : x &&& mask = 0)
    (within : mask &&& part = part) : x &&& part = 0 := by
  rw [← within, ← BitVec.and_assoc, clear]
  exact BitVec.zero_and

theorem or_and_self (x y : LatchType) : (x ||| y) &&& y = y := by
  ext i
  simp only [BitVec.getElem_or, BitVec.getElem_and]
  cases x[i] <;> cases y[i] <;> rfl

/-! ## What the word says -/

/-- An exclusive lock is held alone. -/
def Compatible (locked : List Ticket) : Prop :=
  ∀ ticket ∈ locked, ticket.shared = false → locked = [ticket]

/-- What the locks held add to the word. -/
def weight (locked : List Ticket) : Nat :=
  (locked.map fun ticket => if ticket.shared then 16 else 8).sum

/-- What the first waiter adds to the word. -/
def nextBits : List Ticket → Nat
  | [] => 0
  | fw :: _ => if fw.shared then 4 else 2

theorem nextBits_cases (waiters : List Ticket) :
    waiters = [] ∧ nextBits waiters = 0 ∨
      ∃ fw rest, waiters = fw :: rest ∧
        (fw.shared = true ∧ nextBits waiters = 4 ∨ fw.shared = false ∧ nextBits waiters = 2) := by
  cases waiters with
  | nil => exact Or.inl ⟨rfl, rfl⟩
  | cons fw rest =>
      refine Or.inr ⟨fw, rest, rfl, ?_⟩
      cases shared : fw.shared with
      | true => exact Or.inl ⟨rfl, by simp [nextBits, shared]⟩
      | false => exact Or.inr ⟨rfl, by simp [nextBits, shared]⟩

theorem weight_cons (ticket : Ticket) (locked : List Ticket) :
    weight (ticket :: locked) = weight locked + if ticket.shared then 16 else 8 := by
  rw [weight, List.map_cons, List.sum_cons, Nat.add_comm]
  rfl

theorem weight_shared {locked : List Ticket} (shared : ∀ ticket ∈ locked, ticket.shared = true) :
    weight locked = 16 * locked.length := by
  induction locked with
  | nil => rfl
  | cons ticket rest ih =>
      rw [List.forall_mem_cons] at shared
      have later : weight rest = 16 * rest.length := ih shared.2
      rw [weight, List.map_cons, List.sum_cons, if_pos shared.1, List.length_cons]
      rw [weight] at later
      omega

theorem weight_erase {locked : List Ticket} {ticket : Ticket} (member : ticket ∈ locked) :
    weight locked = weight (locked.erase ticket) + if ticket.shared then 16 else 8 := by
  have split := (List.perm_cons_erase member).map fun ticket : Ticket =>
    if ticket.shared then 16 else 8
  rw [weight, split.sum_nat, List.map_cons, List.sum_cons, Nat.add_comm]
  rfl

/-- Either all locks held are shared, or one is held and it is exclusive. -/
theorem Compatible.cases {locked : List Ticket} (compatible : Compatible locked) :
    (∀ ticket ∈ locked, ticket.shared = true) ∧ weight locked = 16 * locked.length ∨
      ∃ ticket, locked = [ticket] ∧ ticket.shared = false ∧ weight locked = 8 := by
  by_cases shared : ∀ ticket ∈ locked, ticket.shared = true
  · exact Or.inl ⟨shared, weight_shared shared⟩
  · obtain ⟨ticket, member, notShared⟩ : ∃ ticket ∈ locked, ticket.shared ≠ true := by
      simpa using shared
    have exclusive := Bool.eq_false_iff.mpr notShared
    obtain rfl := compatible ticket member exclusive
    exact Or.inr ⟨ticket, rfl, exclusive, by simp [weight, exclusive]⟩

theorem lockBits_eq (shared : Bool) : Mutex.lockBits shared = word (if shared then 16 else 8) := by
  cases shared <;> rfl

theorem toNat_mfLockExcl : mfLockExcl.toNat = 8 :=
  rfl

/-- `allow` decides whether one more lock is compatible. -/
theorem Compatible.allow_iff {locked : List Ticket} (compatible : Compatible locked)
    (room : locked.length < 2 ^ 28) (ticket : Ticket) :
    Mutex.allow ticket.shared (word (weight locked)) = true ↔ Compatible (ticket :: locked) := by
  rcases compatible.cases with ⟨shared, weightEq⟩ | ⟨held, rfl, exclusive, weightEq⟩
  · cases kind : ticket.shared with
    | true =>
        have mask : word (weight locked) &&& mfLockExcl = 0 := by
          rw [weightEq, ← Nat.add_zero (16 * locked.length)]
          exact show word _ &&& word 8 = word (0 &&& 8) from
            word_and (by omega) (by omega) (by omega)
        refine iff_of_true (by simp [Mutex.allow, mask]) fun other member notShared => ?_
        rcases List.mem_cons.mp member with rfl | old
        · rw [kind] at notShared
          contradiction
        · rw [shared other old] at notShared
          contradiction
    | false =>
        simp only [Mutex.allow, Bool.false_eq_true, if_false, decide_eq_true_eq, BitVec.lt_def]
        rw [weightEq, toNat_word (by omega), toNat_mfLockExcl]
        constructor
        · intro small
          have noneLocked : locked = [] := by
            rw [← List.length_eq_zero_iff]
            omega
          subst noneLocked
          intro other member _
          rw [List.mem_singleton.mp member]
        · intro alone
          have single := alone ticket List.mem_cons_self kind
          rw [(List.cons.inj single).2]
          decide
  · refine iff_of_false ?_ fun both => ?_
    · rw [weightEq]
      cases ticket.shared <;> decide
    · have single := both held (List.mem_cons_of_mem _ List.mem_cons_self) exclusive
      exact absurd (List.cons.inj single).2 (List.cons_ne_nil _ _)

/-- The bits of the word when nobody has the latch. -/
theorem Compatible.exists_low {locked : List Ticket} (compatible : Compatible locked)
    (room : locked.length < 2 ^ 28 - 1) (waiters : List Ticket) :
    ∃ s low, weight locked + nextBits waiters = 16 * s + low ∧
      (∀ mask < 16, word (weight locked + nextBits waiters) &&& word mask =
        word (low &&& mask)) ∧
      ((∀ ticket ∈ locked, ticket.shared = true) ∧ s = locked.length ∧ low = nextBits waiters ∨
        (∃ ticket, locked = [ticket] ∧ ticket.shared = false) ∧ s = 0 ∧
          low = 8 + nextBits waiters) := by
  have small : nextBits waiters ≤ 4 := by
    rcases nextBits_cases waiters with ⟨-, idle⟩ | ⟨fw, rest, -, ⟨-, shared⟩ | ⟨-, excl⟩⟩ <;> omega
  have masks : ∀ s low, weight locked + nextBits waiters = 16 * s + low → low < 16 →
      s ≤ locked.length → ∀ mask < 16,
        word (weight locked + nextBits waiters) &&& word mask = word (low &&& mask) := by
    intro s low split lowBits within mask maskBits
    rw [split]
    exact word_and lowBits maskBits (by omega)
  rcases compatible.cases with ⟨shared, weightEq⟩ | ⟨ticket, rfl, exclusive, weightEq⟩
  · have split : weight locked + nextBits waiters = 16 * locked.length + nextBits waiters := by
      rw [weightEq]
    exact ⟨locked.length, _, split, masks _ _ split (by omega) le_rfl, Or.inl ⟨shared, rfl, rfl⟩⟩
  · have split : weight [ticket] + nextBits waiters = 16 * 0 + (8 + nextBits waiters) := by
      rw [weightEq]
      omega
    exact ⟨0, _, split, masks _ _ split (by omega) (Nat.zero_le _),
      Or.inr ⟨⟨ticket, rfl, exclusive⟩, rfl, rfl⟩⟩

/-- The latch bit is not part of what locks and waiters add to the word. -/
theorem latch_clear (locked waiters : List Ticket) :
    word (weight locked + nextBits waiters) &&& mfLatch = 0 := by
  have evenWeight : weight locked % 2 = 0 := by
    induction locked with
    | nil => rfl
    | cons ticket rest ih =>
        rw [weight_cons]
        split <;> omega
  have evenBits : nextBits waiters % 2 = 0 := by
    rcases nextBits_cases waiters with ⟨-, next⟩ | ⟨fw, rest, -, ⟨-, next⟩ | ⟨-, next⟩⟩ <;> omega
  apply BitVec.eq_of_toNat_eq
  rw [BitVec.toNat_and, word, BitVec.toNat_ofNat, show mfLatch.toNat = 1 from rfl,
    Nat.and_one_is_mod]
  show (weight locked + nextBits waiters) % 2 ^ 32 % 2 = 0
  omega

section Bits

variable {locked waiters : List Ticket}

/-- `latch` takes the flags of the first waiter out of the word. -/
theorem Compatible.latched_word (compatible : Compatible locked)
    (room : locked.length < 2 ^ 28 - 1) :
    word (weight locked + nextBits waiters) &&& ~~~mfmNext = word (weight locked) := by
  obtain ⟨s, low, -, masks, bits⟩ := compatible.exists_low room waiters
  have flags : low &&& 6 = nextBits waiters := by
    rcases nextBits_cases waiters with ⟨-, next⟩ | ⟨fw, rest, -, ⟨-, next⟩ | ⟨-, next⟩⟩ <;>
      rcases bits with ⟨-, -, rfl⟩ | ⟨-, -, rfl⟩ <;> rw [next] <;> rfl
  rw [and_not_eq_sub, show mfmNext = word 6 from rfl, masks 6 (by omega), flags, word_add_sub]

/-- A shared lock is tried only where it is compatible and nobody waits. -/
theorem Compatible.of_not_busy (compatible : Compatible locked)
    (room : locked.length < 2 ^ 28 - 1)
    (free : Mutex.busyShared (word (weight locked + nextBits waiters)) = false) :
    waiters = [] ∧ ∀ ticket ∈ locked, ticket.shared = true := by
  obtain ⟨s, low, -, masks, bits⟩ := compatible.exists_low room waiters
  have clear : word (low &&& 15) = 0 := by
    rw [← masks 15 (by omega)]
    exact not_not.mp (of_decide_eq_false free)
  rcases nextBits_cases waiters with ⟨nobody, next⟩ | ⟨fw, rest, -, ⟨-, next⟩ | ⟨-, next⟩⟩ <;>
    rcases bits with ⟨shared, -, rfl⟩ | ⟨-, -, rfl⟩ <;> rw [next] at clear
  · exact ⟨nobody, shared⟩
  all_goals exact absurd clear (by decide)

/-- An exclusive lock is tried only where nobody holds a lock or waits for one. -/
theorem Compatible.of_word_eq_zero (compatible : Compatible locked)
    (room : locked.length < 2 ^ 28 - 1)
    (zero : word (weight locked + nextBits waiters) = 0) : locked = [] ∧ waiters = [] := by
  obtain ⟨s, low, split, -, bits⟩ := compatible.exists_low room waiters
  have small : nextBits waiters ≤ 4 := by
    rcases nextBits_cases waiters with ⟨-, idle⟩ | ⟨fw, rest, -, ⟨-, shared⟩ | ⟨-, excl⟩⟩ <;> omega
  have nothing : weight locked + nextBits waiters = 0 := by
    have value := congrArg BitVec.toNat zero
    rwa [toNat_word (by rcases bits with ⟨-, rfl, rfl⟩ | ⟨-, rfl, rfl⟩ <;> omega)] at value
  constructor
  · rcases bits with ⟨-, rfl, -⟩ | ⟨-, -, rfl⟩
    · exact List.length_eq_zero_iff.mp (by omega)
    · omega
  · rcases nextBits_cases waiters with ⟨nobody, -⟩ | ⟨fw, rest, -, ⟨-, next⟩ | ⟨-, next⟩⟩
    · exact nobody
    all_goals omega

/-- Where `unlock` and `unlock_shared` take the fast path, nobody can go on. -/
theorem Compatible.of_fastUnlock (compatible : Compatible locked)
    (room : locked.length < 2 ^ 28 - 1) {ticket : Ticket} (member : ticket ∈ locked)
    (fast : Mutex.fastUnlock ticket.shared (word (weight locked + nextBits waiters)) = true) :
    waiters = [] ∨ ∃ fw rest, waiters = fw :: rest ∧ fw.shared = false ∧
      locked.erase ticket ≠ [] := by
  obtain ⟨s, low, split, masks, bits⟩ := compatible.exists_low room waiters
  rcases nextBits_cases waiters with ⟨nobody, -⟩ | ⟨fw, rest, waits, next⟩
  · exact Or.inl nobody
  · cases kind : ticket.shared with
    | false =>
        rw [kind] at fast
        have clear : word (low &&& 7) = 0 := by
          rw [← masks 7 (by omega)]
          exact of_decide_eq_true fast
        rcases next with ⟨-, next⟩ | ⟨-, next⟩ <;>
          rcases bits with ⟨-, -, rfl⟩ | ⟨-, -, rfl⟩ <;> rw [next] at clear <;>
          exact absurd clear (by decide)
    | true =>
        rw [kind] at fast
        obtain ⟨clear, stays⟩ := of_decide_eq_true fast
        have flags : word (low &&& 5) = 0 := by
          rw [← masks 5 (by omega)]
          exact clear
        rcases bits with ⟨-, rfl, rfl⟩ | ⟨⟨other, rfl, exclusive⟩, -⟩
        · rcases next with ⟨-, next⟩ | ⟨exclusive, next⟩
          · rw [next] at flags
            exact absurd flags (by decide)
          · refine Or.inr ⟨fw, rest, waits, exclusive, ?_⟩
            have two : 32 ≤ 16 * locked.length + 2 := by
              rcases stays with noneLocked | many
              · have flag := (masks 2 (by omega)).symm.trans noneLocked
                rw [next] at flag
                exact absurd flag (by decide)
              · rw [split, next] at many
                have value := BitVec.le_def.mp many
                rwa [toNat_word (by omega)] at value
            intro nobody
            have lengths := List.length_erase_of_mem member
            rw [nobody, List.length_nil] at lengths
            omega
        · obtain rfl := List.mem_singleton.mp member
          rw [kind] at exclusive
          contradiction

end Bits

theorem Compatible.nil : Compatible [] :=
  fun _ member => absurd member List.not_mem_nil

theorem Compatible.erase {locked : List Ticket} (compatible : Compatible locked)
    (ticket : Ticket) : Compatible (locked.erase ticket) := by
  intro other member exclusive
  have single := compatible other (List.mem_of_mem_erase member) exclusive
  rw [single] at member ⊢
  by_cases same : other = ticket
  · subst same
    simp at member
  · rw [List.erase_of_not_mem fun isIn => same (List.mem_singleton.mp isIn).symm]

end DoomDraft.Cotamer
