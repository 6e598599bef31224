import Mathlib.Data.List.Nodup
import Mathlib.Data.List.Infix

/-!
# Linearizable histories

The clients of an object invoke operations and get answers.  An operation has an
identifier, under which it may be invoked again and answered again.  A history is
linearizable if its operations can be put into one order in which a sequential
object gives the same answers, and which keeps the order of operations that do not
overlap.  An object that answers from a common log is linearizable: the order is
that in which the operations first occur in the log.
-/

namespace DoomDraft

universe u v w x

/-- What the clients of an object see. -/
inductive Observation (Id : Type u) (Op : Type v) (Ret : Type w) where
  | invoke (id : Id) (op : Op)
  | answer (id : Id) (ret : Ret)
  deriving DecidableEq

namespace Observation

variable {σ : Type x} {Id : Type u} {Op : Type v} {Ret : Type w}

/-- The state of a sequential object after operations in order. -/
def finalState (apply : σ → Op → σ × Ret) (start : σ) (ops : List (Id × Op)) : σ :=
  ops.foldl (fun state op => (apply state op.2).1) start

/-- The operations of `order`, taken one after another, explain a history. -/
structure Linearizes (apply : σ → Op → σ × Ret) (start : σ)
    (history : List (Observation Id Op Ret)) (order : List (Id × Op)) : Prop where
  /-- Each operation takes place once. -/
  distinct : (order.map Prod.fst).Nodup
  /-- Only invoked operations take place. -/
  invoked : ∀ id op, (id, op) ∈ order → invoke id op ∈ history
  /-- Answers are those of the sequential object. -/
  answered : ∀ id ret, answer id ret ∈ history → ∃ before op after,
    order = before ++ (id, op) :: after ∧ ret = (apply (finalState apply start before) op).2
  /-- What is first invoked after an answer takes place after the operation answered. -/
  realTime : ∀ early late id ret other op, history = early ++ answer id ret :: late →
    (other, op) ∈ order → (∀ earlier, invoke other earlier ∉ early) →
    [id, other].Sublist (order.map Prod.fst)

/-! ## Answers from a log -/

section Log

variable [DecidableEq Id]

/-- Append an operation unless it has taken place. -/
def takePlace (order : List (Id × Op)) (op : Id × Op) : List (Id × Op) :=
  if op.1 ∈ order.map Prod.fst then order else order ++ [op]

/-- The operations of a log, each where it first occurs. -/
def firsts (log : List (Id × Op)) : List (Id × Op) :=
  log.foldl takePlace []

theorem firsts_append_singleton (log : List (Id × Op)) (op : Id × Op) :
    firsts (log ++ [op]) = takePlace (firsts log) op := by
  rw [firsts, List.foldl_append]
  rfl

theorem mem_ids_firsts (log : List (Id × Op)) (id : Id) :
    id ∈ (firsts log).map Prod.fst ↔ id ∈ log.map Prod.fst := by
  induction log using List.reverseRecOn with
  | nil => rfl
  | append_singleton log last ih =>
      rw [firsts_append_singleton, takePlace]
      split
      · rename_i known
        rw [ih, List.map_append, List.mem_append]
        refine ⟨Or.inl, fun member => member.elim (fun old => old) fun new => ?_⟩
        rw [List.map_singleton, List.mem_singleton] at new
        exact ih.mp (new ▸ known)
      · rw [List.map_append, List.map_append, List.mem_append, List.mem_append, ih]

theorem mem_of_mem_firsts {log : List (Id × Op)} {op : Id × Op} (member : op ∈ firsts log) :
    op ∈ log := by
  induction log using List.reverseRecOn with
  | nil => exact member
  | append_singleton log last ih =>
      rw [firsts_append_singleton, takePlace] at member
      split at member
      · exact List.mem_append_left _ (ih member)
      · rcases List.mem_append.mp member with old | new
        · exact List.mem_append_left _ (ih old)
        · exact List.mem_append_right _ new

theorem nodup_firsts (log : List (Id × Op)) : ((firsts log).map Prod.fst).Nodup := by
  induction log using List.reverseRecOn with
  | nil => exact List.nodup_nil
  | append_singleton log last ih =>
      rw [firsts_append_singleton, takePlace]
      split
      · exact ih
      · rename_i fresh
        rw [List.map_append, List.map_singleton, List.nodup_append]
        refine ⟨ih, List.nodup_singleton _, fun id member other isLast same => fresh ?_⟩
        rwa [← List.mem_singleton.mp isLast, ← same]

/-- A longer log puts more operations behind. -/
theorem firsts_prefix {short long : List (Id × Op)} (isPrefix : short <+: long) :
    firsts short <+: firsts long := by
  obtain ⟨more, rfl⟩ := isPrefix
  induction more using List.reverseRecOn with
  | nil => rw [List.append_nil]
  | append_singleton more last ih =>
      rw [← List.append_assoc, firsts_append_singleton, takePlace]
      split
      · exact ih
      · exact ih.trans (List.prefix_append _ _)

theorem firsts_append_fresh {log : List (Id × Op)} {id : Id} {op : Op}
    (fresh : ∀ other ∈ log, other.1 ≠ id) :
    firsts (log ++ [(id, op)]) = firsts log ++ [(id, op)] := by
  rw [firsts_append_singleton, takePlace, if_neg]
  rw [mem_ids_firsts]
  intro known
  obtain ⟨other, member, same⟩ := List.mem_map.mp known
  exact fresh other member same

/-- The log up to an operation explains an answer that is given at some point of a
history: all operations there have been invoked by then, and the answer is that of
the sequential object. -/
structure Supports (apply : σ → Op → σ × Ret) (start : σ) (log : List (Id × Op))
    (early : List (Observation Id Op Ret)) (id : Id) (ret : Ret) (before : List (Id × Op))
    (op : Op) : Prop where
  isPrefix : before ++ [(id, op)] <+: log
  fresh : ∀ other ∈ before, other.1 ≠ id
  result : ret = (apply (finalState apply start (firsts before)) op).2
  invoked : ∀ other ∈ before ++ [(id, op)], ∃ same, invoke other.1 same ∈ early

/-- The rule for an object that answers from a log. -/
theorem linearizes_firsts {apply : σ → Op → σ × Ret} {start : σ}
    {history : List (Observation Id Op Ret)} {log : List (Id × Op)}
    (logged : ∀ id op, (id, op) ∈ log → invoke id op ∈ history)
    (supported : ∀ early late id ret, history = early ++ answer id ret :: late →
      ∃ before op, Supports apply start log early id ret before op) :
    Linearizes apply start history (firsts log) where
  distinct := nodup_firsts log
  invoked := fun id op member => logged id op (mem_of_mem_firsts member)
  answered := by
    intro id ret member
    obtain ⟨early, late, split⟩ := List.append_of_mem member
    obtain ⟨before, op, supports⟩ := supported early late id ret split
    obtain ⟨after, order⟩ := firsts_prefix supports.isPrefix
    rw [firsts_append_fresh supports.fresh] at order
    refine ⟨firsts before, op, after, ?_, supports.result⟩
    rw [← order, List.append_assoc, List.singleton_append]
  realTime := by
    intro early late id ret other op split member unseen
    obtain ⟨before, own, supports⟩ := supported early late id ret split
    obtain ⟨after, order⟩ := firsts_prefix supports.isPrefix
    have answered : id ∈ (firsts (before ++ [(id, own)])).map Prod.fst := by
      rw [mem_ids_firsts, List.map_append]
      exact List.mem_append_right _ List.mem_cons_self
    have behind : other ∈ after.map Prod.fst := by
      rw [← order] at member
      rcases List.mem_append.mp member with old | new
      · obtain ⟨same, invoked⟩ := supports.invoked _ (mem_of_mem_firsts old)
        exact absurd invoked (unseen same)
      · exact List.mem_map_of_mem new
    rw [← order, List.map_append]
    exact (List.singleton_sublist.mpr answered).append (List.singleton_sublist.mpr behind)

end Log

end Observation

end DoomDraft
