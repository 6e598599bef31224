import DoomDraft.Collab.Convergence
import DoomDraft.Document.Sequence

/-!
# Simulated editors together

The editors of `collab_model` take their steps in any order on one linearizable
database.  Each sees the others only through the operations that they put.
-/

namespace DoomDraft.Collab

open Document Pancy

variable {n : Nat}

/-- An editor with the local state of its coroutine. -/
structure Editor (n : Nat) where
  serial : Nat
  es : EditorState n
  phase : Phase n
  integrated : List Int

/-- `collab_model`: the editors and the database. -/
structure Cluster (n : Nat) where
  docId : ByteString
  editors : Fin n → Editor n
  db : PancyDb
  committed : Fin n → Nat

/-- What may happen next. -/
inductive Move (n : Nat) where
  /-- A step of one of the editors. -/
  | act (cid : Fin n) (action : Action n)
  /-- Step 3 of an editor has sent its put again before it was answered, and both are
  executed. -/
  | resend (cid : Fin n)

namespace Cluster

/-- `max_clients`; `set_nclients` throws for more. -/
def maxClients : Nat := 4096

/-- Nobody has edited and the database is empty. -/
def start (docId : ByteString) (n : Nat) : Cluster n where
  docId := docId
  editors := fun cid => ⟨cid, EditorState.start n, .sync 0 none, []⟩
  db := PancyDb.empty
  committed := fun _ => 0

/-- One of the editors beside the database. -/
def view (c : Cluster n) (cid : Fin n) : World n where
  docId := c.docId
  cid := cid
  serial := (c.editors cid).serial
  es := (c.editors cid).es
  phase := (c.editors cid).phase
  db := c.db
  committed := c.committed
  integrated := (c.editors cid).integrated

/-- The cluster with an editor and the database after a step of the editor. -/
def update (c : Cluster n) (cid : Fin n) (w : World n) : Cluster n where
  docId := c.docId
  editors := Function.update c.editors cid ⟨w.serial, w.es, w.phase, w.integrated⟩
  db := w.db
  committed := w.committed

/-- The put of an operation of an editor is executed. -/
def executePut (c : Cluster n) (cid : Fin n) (seq : Nat) (op : DocOp Byte) (serial : Nat) :
    Cluster n :=
  let w := (c.view cid).executePut cid seq op serial
  { c with db := w.db, committed := w.committed }

/-- One step; `none` when it is not enabled.  The puts of an editor are those of its
own coroutine. -/
def step (c : Cluster n) : Move n → Option (Cluster n)
  | .act _ (.peerPut _ _ _ _) => none
  | .act cid action => ((c.view cid).step action).map (c.update cid)
  | .resend cid =>
      let editor := c.editors cid
      match editor.phase, editor.es.pending, editor.es.pendingSeqs with
      | .pause, op :: _, seq :: _ => some (c.executePut cid seq op editor.serial)
      | _, _, _ => none

/-- Perform steps in order. -/
def perform (c : Cluster n) (moves : List (Move n)) : Option (Cluster n) :=
  Transition.perform step c moves

/-- Each editor integrates operations at increasing versions. -/
def InOrder (c : Cluster n) : Move n → Prop
  | .act cid action => (c.view cid).InOrder action
  | .resend _ => True

/-- The numbers of what is put are of 64-bit types. -/
def InRange (c : Cluster n) : Move n → Prop
  | .act cid action => (c.view cid).InRange action
  | .resend cid => (c.view cid).InRange .submit

/-- Where an operation of another editor is integrated, it may as well be applied in
front of the pending operations, and what is put is new or the newest. -/
def Merges (c : Cluster n) : Move n → Prop
  | .act cid action => (c.view cid).Merges action
  | .resend cid => (c.view cid).Merges .submit

/-- No insertion of another editor is integrated while an insertion at the same
position is pending. -/
def Apart (c : Cluster n) : Move n → Prop
  | .act cid .endRound => ∀ best ∈ (c.editors cid).phase.best?, best.peer ≠ cid →
      ∀ p ∈ (c.editors cid).es.pending ++ (c.view cid).frozen.toList, ¬ SamePlace p best.op
  | _ => True

/-- The editor has integrated every committed operation. -/
def HasIntegratedAll (c : Cluster n) (cid : Fin n) : Prop :=
  ∀ op ∈ readOps c.db c.docId, op.clientSeq < (c.view cid).nextOf op.clientId

instance (c : Cluster n) : ∀ move, Decidable (c.InOrder move)
  | .act cid action => inferInstanceAs (Decidable ((c.view cid).InOrder action))
  | .resend _ => isTrue trivial

instance (c : Cluster n) : ∀ move, Decidable (c.InRange move)
  | .act cid action => inferInstanceAs (Decidable ((c.view cid).InRange action))
  | .resend cid => inferInstanceAs (Decidable ((c.view cid).InRange .submit))

instance (c : Cluster n) : ∀ move, Decidable (c.Merges move)
  | .act cid action => inferInstanceAs (Decidable ((c.view cid).Merges action))
  | .resend cid => inferInstanceAs (Decidable ((c.view cid).Merges .submit))

instance (c : Cluster n) : ∀ move, Decidable (c.Apart move)
  | .act cid .endRound =>
      have (best : Best n) : Decidable (∀ p ∈ (c.editors cid).es.pending ++
          (c.view cid).frozen.toList, ¬ SamePlace p best.op) := List.decidableBAll _ _
      inferInstanceAs (Decidable (∀ best ∈ (c.editors cid).phase.best?, best.peer ≠ cid → _))
  | .act _ .get | .act _ .timeout | .act _ (.edit _) | .act _ .submit | .act _ .wake
  | .act _ (.peerPut _ _ _ _) | .resend _ => isTrue trivial

instance (c : Cluster n) (cid : Fin n) : Decidable (c.HasIntegratedAll cid) :=
  inferInstanceAs (Decidable (∀ op ∈ readOps c.db c.docId, _))

/-! ## Steps -/

/-- The put of an editor, as a step of the database. -/
structure Puts (w v : World n) (action : Action n) (seq : Nat) (op : DocOp Byte)
    (serial : Nat) : Prop where
  submits : action = .submit
  pending : w.es.pending.head? = some op
  pendingSeqs : w.es.pendingSeqs.head? = some seq
  db : v.db = (w.executePut w.cid seq op serial).db
  committed : v.committed = (w.executePut w.cid seq op serial).committed

/-- What a step of an editor does to the database. -/
theorem shared_of_step {w v : World n} {action : Action n}
    (own : ∀ peer again op serial, action ≠ .peerPut peer again op serial)
    (stepped : w.step action = some v) :
    v.docId = w.docId ∧ v.cid = w.cid ∧
      (v.db = w.db ∧ v.committed = w.committed ∨
        ∃ seq op serial, Puts w v action seq op serial) := by
  cases World.steps_of_step stepped with
  | get | timeout | roundWithout | roundWith | noEdit | edit | noSubmit | wake =>
      exact ⟨rfl, rfl, Or.inl ⟨rfl, rfl⟩⟩
  | submit op rest seq pending isSeq =>
      exact ⟨rfl, rfl, Or.inr ⟨seq, op, _, rfl, by rw [pending]; rfl, isSeq, rfl, rfl⟩⟩
  | peerPut peer again op serial => exact absurd rfl (own peer again op serial)

theorem view_update_self (c : Cluster n) {cid : Fin n} {w : World n} (docId : w.docId = c.docId)
    (isCid : w.cid = cid) : (c.update cid w).view cid = w := by
  obtain ⟨docId', cid', serial, es, phase, db, committed, integrated⟩ := w
  obtain rfl : docId' = c.docId := docId
  obtain rfl : cid' = cid := isCid
  simp [view, update]

/-- The view of another editor. -/
theorem view_update_of_ne (c : Cluster n) {cid other : Fin n} (w : World n)
    (different : other ≠ cid) : (c.update cid w).view other =
      { c.view other with db := w.db, committed := w.committed } := by
  simp [view, update, different]

/-- All editors are as they should be. -/
def Tracked (c : Cluster n) : Prop :=
  ∀ cid, (c.view cid).Tracked

theorem tracked_start (docId : ByteString) (n : Nat) : (start docId n).Tracked := by
  intro cid
  have ordered := World.ordered_start docId cid
  have nothing : ∀ peer seq, ((start docId n).view cid).cellAt peer seq = none := fun _ _ => rfl
  have noOps : readOps ((start docId n).view cid).db docId = [] := rfl
  have empty : ((start docId n).view cid).base = [] := by
    rw [World.base, World.integratedOps]
    rfl
  have noneFrozen : ((start docId n).view cid).frozen = none := rfl
  constructor
  · exact ⟨ordered.committed.versioned, ordered.committed.present, ordered.committed.ascending⟩
  · exact ordered.queued
  · exact fun _ => Nat.le_refl 0
  · intro key cell found
    contradiction
  · intro peer seq cell found
    rw [nothing] at found
    contradiction
  · intro peer seq before
    exact absurd before (Nat.not_lt_zero _)
  · rw [empty]
    rfl
  · intro best picked
    contradiction

/-- A put of the first pending operation of an editor, seen by any of them. -/
theorem Tracked.executePut {c : Cluster n} (tracked : c.Tracked) (small : n ≤ uint64Size)
    {cid : Fin n} {seq : Nat} {op : DocOp Byte}
    (isOp : (c.view cid).es.pending.head? = some op)
    (isSeq : (c.view cid).es.pendingSeqs.head? = some seq)
    (inRange : (c.view cid).InRange .submit) (merges : (c.view cid).Merges .submit)
    (serial : Nat) (other : Fin n) : ((c.view other).executePut cid seq op serial).Tracked := by
  obtain ⟨first, ordered⟩ := (tracked cid).queued.head_seq isSeq
  refine (tracked other).executePut small ordered ?_ (inRange.1 op isOp) (inRange.2 seq isSeq)
    (merges op isOp seq isSeq) serial
  rintro (rfl : cid = other)
  exact ⟨first, List.head?_eq_some_iff.mp isOp⟩

/-- Each editor keeps its text when one of them takes a permitted step. -/
theorem Tracked.act {c d : Cluster n} {cid : Fin n} {action : Action n} (tracked : c.Tracked)
    (small : n ≤ uint64Size) (inOrder : c.InOrder (.act cid action))
    (inRange : c.InRange (.act cid action)) (merges : c.Merges (.act cid action))
    (stepped : c.step (.act cid action) = some d) : d.Tracked := by
  have own : ∀ peer again op serial, action ≠ .peerPut peer again op serial := by
    rintro peer again op serial rfl
    contradiction
  obtain ⟨v, taken, rfl⟩ : ∃ v, (c.view cid).step action = some v ∧ c.update cid v = d := by
    cases action with
    | peerPut peer again op serial => exact absurd rfl (own peer again op serial)
    | get | timeout | endRound | edit op | submit | wake =>
        exact Option.map_eq_some_iff.mp stepped
  have mine := (tracked cid).step small own inOrder inRange merges taken
  obtain ⟨docIdEq, cidEq, shared⟩ := shared_of_step own taken
  intro other
  by_cases same : other = cid
  · have isCid : v.cid = cid := cidEq
    rw [same, view_update_self c docIdEq isCid]
    exact mine
  · rw [view_update_of_ne c v same]
    rcases shared with ⟨dbEq, committedEq⟩ | ⟨seq, op, serial, puts⟩
    · rw [dbEq, committedEq]
      exact tracked other
    · rw [puts.db, puts.committed]
      obtain rfl := puts.submits
      exact tracked.executePut small puts.pending puts.pendingSeqs inRange merges serial other

theorem Tracked.step {c d : Cluster n} {move : Move n} (tracked : c.Tracked)
    (small : n ≤ uint64Size) (inOrder : c.InOrder move) (inRange : c.InRange move)
    (merges : c.Merges move) (stepped : c.step move = some d) : d.Tracked := by
  cases move with
  | act cid action => exact tracked.act small inOrder inRange merges stepped
  | resend cid =>
      simp only [Cluster.step] at stepped
      split at stepped
      · rename_i op rest seq seqs inPause pendingEq seqsEq
        obtain rfl := Option.some.inj stepped
        have isOp : (c.view cid).es.pending.head? = some op := by
          change (c.editors cid).es.pending.head? = _
          rw [pendingEq]
          rfl
        have isSeq : (c.view cid).es.pendingSeqs.head? = some seq := by
          change (c.editors cid).es.pendingSeqs.head? = _
          rw [seqsEq]
          rfl
        exact tracked.executePut small isOp isSeq inRange merges _
      · contradiction

/-- The document of a cluster does not change. -/
theorem docId_of_step {c d : Cluster n} {move : Move n} (stepped : c.step move = some d) :
    d.docId = c.docId := by
  cases move with
  | act cid action =>
      cases action with
      | peerPut peer again op serial => contradiction
      | get | timeout | endRound | edit op | submit | wake =>
          obtain ⟨v, -, rfl⟩ := Option.map_eq_some_iff.mp stepped
          rfl
  | resend cid =>
      simp only [Cluster.step] at stepped
      split at stepped
      · obtain rfl := Option.some.inj stepped
        rfl
      · contradiction

/-! ## Every run -/

/-- A round of one of two editors. -/
def round (cid : Fin 2) : List (Move 2) :=
  [.act cid .get, .act cid .get, .act cid .endRound]

/-- A round of one of two editors without answers. -/
def lostRound (cid : Fin 2) : List (Move 2) :=
  [.act cid .timeout, .act cid .timeout, .act cid .endRound]

/-- Steps 2 to 4 of one of two editors. -/
def editSubmit (cid : Fin 2) (op : Option (DocOp Byte)) : List (Move 2) :=
  [.act cid (.edit op), .act cid .submit, .act cid .wake]

/-- An insertion of ASCII. -/
def insertAt (pos : Nat) (text : List Char) : DocOp Byte :=
  .insert pos (ascii text)

/-- The texts of the editors, in every run that keeps the conditions of `Merges`: an
editor without pending operations that has integrated every committed one has the
text that the database gives. -/
theorem convergence {docId : ByteString} (clients : n ≤ maxClients) {moves : List (Move n)}
    {final : Cluster n} (run : (start docId n).perform moves = some final)
    (inOrder : Transition.Permitted step InOrder (start docId n) moves)
    (inRange : Transition.Permitted step InRange (start docId n) moves)
    (merges : Transition.Permitted step Merges (start docId n) moves) (cid : Fin n)
    (noPending : (final.editors cid).es.pending = []) (all : final.HasIntegratedAll cid) :
    (final.editors cid).es.localText = reconstruct (readOps final.db docId) := by
  have small : n ≤ uint64Size := clients.trans (by decide)
  have both : final.docId = docId ∧ final.Tracked := by
    refine Transition.perform_induction (P := fun c : Cluster n => c.docId = docId ∧ c.Tracked)
      ?_ ⟨rfl, tracked_start docId n⟩ ((inOrder.and inRange).and merges) run
    rintro c move d ⟨sameDoc, tracked⟩ ⟨⟨ordered, ranged⟩, merged⟩ stepped
    exact ⟨(docId_of_step stepped).trans sameDoc,
      tracked.step small ordered ranged merged stepped⟩
  obtain ⟨rfl, tracked⟩ := both
  exact (tracked cid).localText_eq noPending all

/-- The second editor has an operation that it has not put when it integrates one of
the first. -/
def editsBehind : List (Move 2) :=
  lostRound 1 ++ editSubmit 1 (some (insertAt 0 ['a', 'b'])) ++
  lostRound 1 ++ editSubmit 1 (some (insertAt 2 ['c'])) ++
  round 0 ++ round 0 ++ editSubmit 0 (some (insertAt 0 ['x'])) ++
  round 1 ++ round 1 ++ round 1 ++ editSubmit 1 none ++ round 1 ++ round 1 ++
  round 0 ++ round 0 ++ round 0

theorem convergence_editsBehind : ∃ final : Cluster 2,
    (start (ascii ['d']) 2).perform editsBehind = some final ∧
      (final.editors 1).es.localText = ascii ['x', 'a', 'b', 'c'] ∧
      ∀ cid, (final.editors cid).es.localText = reconstruct (readOps final.db (ascii ['d'])) := by
  have facts : ((start (ascii ['d']) 2).perform editsBehind).any (fun final =>
      (∀ cid, (final.editors cid).es.pending = [] ∧ final.HasIntegratedAll cid) ∧
        (final.editors 1).es.localText = ascii ['x', 'a', 'b', 'c']) = true := by
    decide +kernel
  obtain ⟨final, run, holds⟩ := (Option.any_eq_true _ _).mp facts
  obtain ⟨quiet, text⟩ := of_decide_eq_true holds
  have permitted : Transition.Permitted step (fun c move => InOrder c move ∧ InRange c move ∧
      Merges c move) (start (ascii ['d']) 2) editsBehind := by
    decide +kernel
  refine ⟨final, run, text, fun cid => ?_⟩
  exact convergence (by decide) run (permitted.imp fun _ _ holds => holds.1)
    (permitted.imp fun _ _ holds => holds.2.1) (permitted.imp fun _ _ holds => holds.2.2) cid
    (quiet cid).1 (quiet cid).2

/-- On a text `ab` the first editor inserts in front while the insertion of the second
at the end has been put. -/
def insertsAround : List (Move 2) :=
  round 0 ++ editSubmit 0 (some (insertAt 0 ['a', 'b'])) ++ round 0 ++ round 0 ++
  round 1 ++ round 1 ++
  editSubmit 0 (some (insertAt 0 ['x'])) ++ editSubmit 1 (some (insertAt 2 ['y'])) ++
  round 1 ++ round 1 ++ round 1

/-- The second editor moves its insertion, and the database does not. -/
theorem insertsAround_diverges : ¬ ∀ (n : Nat) (docId : ByteString), n ≤ maxClients →
    ∀ (moves : List (Move n)) (final : Cluster n),
      (start docId n).perform moves = some final →
      Transition.Permitted step InOrder (start docId n) moves →
      Transition.Permitted step InRange (start docId n) moves →
      Transition.Permitted step Apart (start docId n) moves →
      ∀ cid, (final.editors cid).es.pending = [] → final.HasIntegratedAll cid →
        (final.editors cid).es.localText = reconstruct (readOps final.db docId) := by
  intro always
  have facts : ((start (ascii ['d']) 2).perform insertsAround).any (fun final =>
      ((final.editors 1).es.pending = [] ∧ final.HasIntegratedAll 1) ∧
        (final.editors 1).es.localText = ascii ['x', 'a', 'b', 'y'] ∧
        reconstruct (readOps final.db (ascii ['d'])) = ascii ['x', 'a', 'y', 'b']) = true := by
    decide +kernel
  obtain ⟨final, run, holds⟩ := (Option.any_eq_true _ _).mp facts
  obtain ⟨⟨noPending, all⟩, text, stored⟩ := of_decide_eq_true holds
  have permitted : Transition.Permitted step (fun c move => InOrder c move ∧ InRange c move ∧
      Apart c move) (start (ascii ['d']) 2) insertsAround := by
    decide +kernel
  have same := always 2 _ (by decide) insertsAround final run
    (permitted.imp fun _ _ holds => holds.1) (permitted.imp fun _ _ holds => holds.2.1)
    (permitted.imp fun _ _ holds => holds.2.2) 1 noPending all
  rw [text, stored] at same
  exact absurd same (by decide)

end Cluster

end DoomDraft.Collab
