import DoomDraft.Document.Diamond
import Mathlib.Data.List.Induction

/-!
# Sequences of operations

An operation and a sequence on one text.  The operation moves past the sequence
by `transformSeq`; each member of the sequence has to move past the operation
as the earlier members have left it.
-/

namespace DoomDraft.Document

universe u v

variable {α : Type u}

/-- Each operation is within the text that the earlier ones leave. -/
def AllInBounds (text : List α) : List (DocOp α) → Prop
  | [] => True
  | op :: rest => op.InBounds text.length ∧ AllInBounds (applyOp text op) rest

/-- The operation, moved past the earlier members of the sequence, never inserts
where the next member does. -/
def Apart (op : DocOp α) : List (DocOp α) → Prop
  | [] => True
  | first :: rest => ¬ SamePlace first op ∧ Apart (transform op first) rest

/-- The sequence adjusted to a text on which the operation has been applied:
the operation meets each member after moving past the earlier ones. -/
def rebase (op : DocOp α) : List (DocOp α) → List (DocOp α)
  | [] => []
  | first :: rest => transform first op :: rebase (transform op first) rest

instance decidableAllInBounds :
    ∀ (text : List α) (ops : List (DocOp α)), Decidable (AllInBounds text ops)
  | _, [] => isTrue trivial
  | text, op :: rest =>
      have := decidableAllInBounds (applyOp text op) rest
      inferInstanceAs (Decidable (op.InBounds text.length ∧ AllInBounds (applyOp text op) rest))

instance decidableSamePlace : ∀ a b : DocOp α, Decidable (SamePlace a b)
  | .insert pos _, .insert otherPos _ => inferInstanceAs (Decidable (pos = otherPos))
  | .insert _ _, .delete _ _ => isFalse id
  | .delete _ _, _ => isFalse id

instance decidableApart : ∀ (op : DocOp α) (ops : List (DocOp α)), Decidable (Apart op ops)
  | _, [] => isTrue trivial
  | op, first :: rest =>
      have := decidableApart (transform op first) rest
      inferInstanceAs (Decidable (¬ SamePlace first op ∧ Apart (transform op first) rest))

theorem AllInBounds.left {text : List α} {first second : List (DocOp α)}
    (bounds : AllInBounds text (first ++ second)) : AllInBounds text first := by
  induction first generalizing text with
  | nil => exact trivial
  | cons op rest ih => exact ⟨bounds.1, ih bounds.2⟩

theorem Apart.left {op : DocOp α} {first second : List (DocOp α)}
    (apart : Apart op (first ++ second)) : Apart op first := by
  induction first generalizing op with
  | nil => exact trivial
  | cons head rest ih => exact ⟨apart.1, ih apart.2⟩

theorem AllInBounds.last {text : List α} {earlier : List (DocOp α)} {next : DocOp α}
    (bounds : AllInBounds text (earlier ++ [next])) :
    next.InBounds (applyAll text earlier).length := by
  induction earlier generalizing text with
  | nil => exact bounds.1
  | cons op rest ih => exact ih bounds.2

theorem Apart.last {op : DocOp α} {earlier : List (DocOp α)} {next : DocOp α}
    (apart : Apart op (earlier ++ [next])) : ¬ SamePlace next (transformSeq op earlier) := by
  induction earlier generalizing op with
  | nil => exact apart.1
  | cons head rest ih => exact ih apart.2

theorem rebase_concat (op : DocOp α) (ops : List (DocOp α)) (last : DocOp α) :
    rebase op (ops ++ [last]) = rebase op ops ++ [transform last (transformSeq op ops)] := by
  induction ops generalizing op with
  | nil => rfl
  | cons first rest ih =>
      simp only [List.cons_append, rebase]
      rw [ih]
      rfl

theorem applyAll_concat (text : List α) (ops : List (DocOp α)) (last : DocOp α) :
    applyAll text (ops ++ [last]) = applyOp (applyAll text ops) last :=
  applyAll_append text ops [last]

/-- The diamond property of a sequence: the rebased sequence after the
operation and the moved operation after the sequence lead to one text. -/
theorem applyAll_rebase {text : List α} {op : DocOp α} {ops : List (DocOp α)}
    (opIn : op.InBounds text.length) (bounds : AllInBounds text ops) (apart : Apart op ops) :
    applyAll (applyOp text op) (rebase op ops) =
      applyOp (applyAll text ops) (transformSeq op ops) := by
  induction ops generalizing text op with
  | nil => rfl
  | cons first rest ih =>
      have diamond : Diamond text first op := diamond_of_not_samePlace bounds.1 opIn apart.1
      calc applyAll (applyOp text op) (rebase op (first :: rest))
          = applyAll (applyOp (applyOp text op) (transform first op))
              (rebase (transform op first) rest) := rfl
        _ = applyAll (applyOp (applyOp text first) (transform op first))
              (rebase (transform op first) rest) := by rw [diamond]
        _ = applyOp (applyAll (applyOp text first) rest)
              (transformSeq (transform op first) rest) :=
          ih (transform_inBounds opIn bounds.1) bounds.2 apart.2

/-- An operation within the text is, moved past a sequence, within the text that
the sequence leaves. -/
theorem transformSeq_inBounds {text : List α} {op : DocOp α} {ops : List (DocOp α)}
    (opIn : op.InBounds text.length) (bounds : AllInBounds text ops) :
    (transformSeq op ops).InBounds (applyAll text ops).length := by
  induction ops generalizing text op with
  | nil => exact opIn
  | cons first rest ih => exact ih (transform_inBounds opIn bounds.1) bounds.2

theorem allInBounds_iff {text : List α} {ops : List (DocOp α)} :
    AllInBounds text ops ↔ ∀ earlier next, earlier ++ [next] <+: ops →
      next.InBounds (applyAll text earlier).length := by
  constructor
  · rintro bounds earlier next ⟨rest, rfl⟩
    exact bounds.left.last
  · intro within
    induction ops generalizing text with
    | nil => trivial
    | cons first rest ih =>
        refine ⟨within [] first ⟨rest, rfl⟩, ih fun earlier next isPrefix => ?_⟩
        exact within (first :: earlier) next (List.cons_prefix_cons.mpr ⟨rfl, isPrefix⟩)

theorem apart_iff {op : DocOp α} {ops : List (DocOp α)} :
    Apart op ops ↔ ∀ earlier next, earlier ++ [next] <+: ops →
      ¬ SamePlace next (transformSeq op earlier) := by
  constructor
  · rintro apart earlier next ⟨rest, rfl⟩
    exact apart.left.last
  · intro distinct
    induction ops generalizing op with
    | nil => trivial
    | cons first rest ih =>
        refine ⟨distinct [] first ⟨rest, rfl⟩, ih fun earlier next isPrefix => ?_⟩
        exact distinct (first :: earlier) next (List.cons_prefix_cons.mpr ⟨rfl, isPrefix⟩)

theorem rebase_eq_mapIdx (op : DocOp α) (ops : List (DocOp α)) :
    rebase op ops = ops.mapIdx fun i next => transform next (transformSeq op (ops.take i)) := by
  induction ops generalizing op with
  | nil => rfl
  | cons first rest ih =>
      rw [rebase, ih, List.mapIdx_cons]
      rfl

/-- The diamond property lifted to a sequence: an operation, moved past a
sequence that it never meets at one place, is within the text behind the
sequence, and there it has the effect that it has before the sequence when each
member of the sequence is moved past it in turn. -/
theorem transformSeq_diamond {text : List α} {op : DocOp α} {ops : List (DocOp α)}
    (opIn : op.InBounds text.length)
    (within : ∀ earlier next, earlier ++ [next] <+: ops →
      next.InBounds (applyAll text earlier).length)
    (apart : ∀ earlier next, earlier ++ [next] <+: ops →
      ¬ SamePlace next (transformSeq op earlier)) :
    (transformSeq op ops).InBounds (applyAll text ops).length ∧
      applyOp (applyAll text ops) (transformSeq op ops) =
        applyAll (applyOp text op)
          (ops.mapIdx fun i next => transform next (transformSeq op (ops.take i))) := by
  have bounds : AllInBounds text ops := allInBounds_iff.mpr within
  refine ⟨transformSeq_inBounds opIn bounds, ?_⟩
  rw [← rebase_eq_mapIdx]
  exact (applyAll_rebase opIn bounds (apart_iff.mpr apart)).symm

/-- An insertion that moves past an insertion before it and is then swallowed
by a deletion. -/
theorem transformSeq_diamond_swallowed :
    (transformSeq (.insert 1 [7]) [.insert 0 [8], .delete 1 2]).InBounds
        (applyAll [1, 2, 3] [.insert 0 [8], .delete 1 2]).length ∧
      applyOp (applyAll [1, 2, 3] [.insert 0 [8], .delete 1 2])
          (transformSeq (.insert 1 [7]) [.insert 0 [8], .delete 1 2]) =
        applyAll (applyOp [1, 2, 3] (.insert 1 [7]))
          ([DocOp.insert 0 [8], .delete 1 2].mapIdx fun i next =>
            transform next (transformSeq (.insert 1 [7]) ([.insert 0 [8], .delete 1 2].take i))) :=
  have within : AllInBounds [1, 2, 3] [.insert 0 [8], .delete 1 2] := by decide
  have apart : Apart (.insert 1 [7]) [.insert 0 [8], .delete 1 2] := by decide
  transformSeq_diamond (by decide) (allInBounds_iff.mp within) (apart_iff.mp apart)

/-! ## Rebasing against the operation as it came -/

/-- Behind `earlier`, the next operation has the same effect transformed against
`op` as it came as transformed against `op` moved past `earlier`. -/
def MovesAlike (text : List α) (op : DocOp α) (earlier : List (DocOp α)) (next : DocOp α) : Prop :=
  applyOp (applyAll (applyOp text op) (rebase op earlier)) (transform next op) =
    applyOp (applyAll (applyOp text op) (rebase op earlier))
      (transform next (transformSeq op earlier))

instance [DecidableEq α] (text : List α) (op : DocOp α) (earlier : List (DocOp α))
    (next : DocOp α) : Decidable (MovesAlike text op earlier next) :=
  inferInstanceAs (Decidable (_ = _))

/-- Transforming every item's operation against the operation as it came leads
to the texts of the rebased sequence, at each point of the sequence, exactly
when each item moves alike. -/
theorem applyAll_map_transform_iff {β : Type v} (opOf : β → DocOp α) (text : List α)
    (op : DocOp α) (items : List β) :
    (∀ queue, queue <+: items →
        applyAll (applyOp text op) ((queue.map opOf).map (transform · op)) =
          applyAll (applyOp text op) (rebase op (queue.map opOf))) ↔
      ∀ queue next, queue ++ [next] <+: items →
        MovesAlike text op (queue.map opOf) (opOf next) := by
  constructor
  · intro agree queue next isPrefix
    have shorter := agree queue ((List.prefix_append _ _).trans isPrefix)
    have longer := agree (queue ++ [next]) isPrefix
    rwa [List.map_append, List.map_append, List.map_singleton, List.map_singleton, rebase_concat,
      applyAll_concat, applyAll_concat, shorter] at longer
  · intro alike queue
    induction queue using List.reverseRecOn with
    | nil => exact fun _ => rfl
    | append_singleton queue next ih =>
        intro isPrefix
        have shorter := ih ((List.prefix_append _ _).trans isPrefix)
        rw [List.map_append, List.map_append, List.map_singleton, List.map_singleton, rebase_concat,
          applyAll_concat, applyAll_concat, shorter]
        exact alike queue next isPrefix

end DoomDraft.Document
