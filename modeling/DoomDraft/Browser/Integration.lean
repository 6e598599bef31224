import DoomDraft.Browser.Editor
import DoomDraft.Document.Sequence

/-!
# Integrating a foreign commit

What the foreign branch of `handleSSEOp` shows: the old view with the foreign
operation, moved past the pending ones, merged in.  The branch transforms each
pending operation against the foreign operation as it came, so this asks for
pending operations to which the difference does not matter.
-/

namespace DoomDraft.Browser

open Document

universe u

variable {α : Type u}

namespace Editor

/-- The operations of `s.pending`. -/
def ops (s : Editor α) : List (DocOp α) :=
  s.pending.map PendingOp.op

/-- The event takes the foreign branch of `handleSSEOp`. -/
def TakesAsForeign (s : Editor α) (event : OpEvent α) : Prop :=
  s.serverVersion < event.version ∧ ¬ s.OwnsEvent event

/-- The event leaves the old view with its operation, moved past the pending
ones, merged in. -/
def Merges [DecidableEq α] (s : Editor α) (event : OpEvent α) : Prop :=
  (s.handleSSEOp event).1.fullText = applyOp s.fullText (transformSeq event.op s.ops)

instance [DecidableEq α] (s : Editor α) (event : OpEvent α) : Decidable (s.Merges event) :=
  inferInstanceAs (Decidable (_ = _))

theorem fullText_eq (s : Editor α) : s.fullText = applyAll s.serverText s.ops := by
  simp only [fullText, applyAll, ops, List.foldl_map]

theorem TakesAsForeign.queue {s : Editor α} {event : OpEvent α} {queue : List (PendingOp α)}
    (foreign : s.TakesAsForeign event) (isPrefix : queue <+: s.pending) :
    { s with pending := queue }.TakesAsForeign event := by
  obtain ⟨later, split⟩ := isPrefix
  constructor
  · exact foreign.1
  · intro owns
    apply foreign.2
    cases queue with
    | nil => exact absurd owns.1 (by simp [FrontIs])
    | cons front rest =>
        have sameFront : s.FrontIs event.seq := by
          have front := owns.1
          rw [FrontIs, ← split]
          exact front
        exact ⟨sameFront, owns.2⟩

theorem fullText_handleSSEOp [DecidableEq α] {s : Editor α} {event : OpEvent α}
    (foreign : s.TakesAsForeign event) :
    (s.handleSSEOp event).1.fullText =
      applyAll (applyOp s.serverText event.op) (s.ops.map (transform · event.op)) := by
  rw [fullText_eq, handleSSEOp, if_neg (Nat.not_le.mpr foreign.1), if_neg foreign.2]
  simp [ops, Function.comp_def]

theorem merges_iff [DecidableEq α] {s : Editor α} {event : OpEvent α}
    (foreign : s.TakesAsForeign event) (eventIn : event.op.InBounds s.serverText.length)
    (bounds : AllInBounds s.serverText s.ops) (apart : Apart event.op s.ops) :
    s.Merges event ↔
      applyAll (applyOp s.serverText event.op) (s.ops.map (transform · event.op)) =
        applyAll (applyOp s.serverText event.op) (rebase event.op s.ops) := by
  rw [Merges, fullText_handleSSEOp foreign, fullText_eq, applyAll_rebase eventIn bounds apart]

/-- A foreign commit is merged into the view of the queue and of every shorter
queue it starts with exactly when each pending operation has the same effect
transformed against the foreign operation as it came as transformed against the
foreign operation moved past the earlier pending ones. -/
theorem handleSSEOp_merges_iff [DecidableEq α] (s : Editor α) (event : OpEvent α)
    (foreign : s.TakesAsForeign event) (eventIn : event.op.InBounds s.serverText.length)
    (bounds : AllInBounds s.serverText s.ops) (apart : Apart event.op s.ops) :
    (∀ queue, queue <+: s.pending → { s with pending := queue }.Merges event) ↔
      ∀ queue next, queue ++ [next] <+: s.pending →
        MovesAlike s.serverText event.op (queue.map PendingOp.op) next.op := by
  rw [← applyAll_map_transform_iff]
  apply forall₂_congr
  intro queue isPrefix
  have split : ∃ later, s.ops = queue.map PendingOp.op ++ later := by
    obtain ⟨later, split⟩ := isPrefix
    exact ⟨later.map PendingOp.op, by rw [ops, ← split, List.map_append]⟩
  obtain ⟨later, split⟩ := split
  rw [split] at bounds apart
  exact merges_iff (s := { s with pending := queue }) (foreign.queue isPrefix) eventIn bounds.left
    apart.left

/-- Two pending insertions at the start of `abc`. -/
def twoPending : Editor Char where
  clientId := ['c']
  serverText := ['a', 'b', 'c']
  pending := [⟨0, .insert 0 ['X', 'X']⟩, ⟨1, .insert 2 ['Y']⟩]
  mySeqs := {0}
  inflightSeq := some 0
  nextSeq := 2
  serverVersion := 1
  connected := true

/-- A foreign insertion of `Z` at `pos`. -/
def insertZ (pos : Nat) : OpEvent Char :=
  ⟨2, ['d'], 0, .insert pos ['Z']⟩

theorem handleSSEOp_merges_insertZ_three : twoPending.Merges (insertZ 3) := by
  have merges := handleSSEOp_merges_iff twoPending (insertZ 3) ⟨by decide, by decide⟩ (by decide)
    (by decide) (by decide)
  apply merges.mpr _ twoPending.pending List.prefix_rfl
  rintro queue next ⟨later, split⟩
  rcases queue with _ | ⟨first, _ | ⟨second, rest⟩⟩
  · obtain ⟨rfl, rfl⟩ : next = ⟨0, .insert 0 ['X', 'X']⟩ ∧ later = [⟨1, .insert 2 ['Y']⟩] := by
      simpa [twoPending] using split
    decide
  · obtain ⟨rfl, rfl, rfl⟩ : first = ⟨0, .insert 0 ['X', 'X']⟩ ∧ next = ⟨1, .insert 2 ['Y']⟩ ∧
        later = [] := by
      simpa [twoPending] using split
    decide
  · simp [twoPending] at split

/-- With two pending insertions, a foreign insertion between them and the end
of the text is not merged into the view, although no two insertions meet. -/
theorem insertZ_one_not_merged :
    ¬ ∀ (s : Editor Char) (event : OpEvent Char), s.TakesAsForeign event →
      event.op.InBounds s.serverText.length → AllInBounds s.serverText s.ops →
      Apart event.op s.ops → (∀ op ∈ s.ops, ¬ SamePlace op event.op) → s.Merges event := by
  intro merges
  have merged := merges twoPending (insertZ 1) ⟨by decide, by decide⟩ (by decide) (by decide)
    (by decide) (by decide)
  exact absurd merged (by decide)

end Editor

end DoomDraft.Browser
