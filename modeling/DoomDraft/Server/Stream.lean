import DoomDraft.Document.Replay
import DoomDraft.Foundation.Transition
import DoomDraft.Server.Cache

/-!
# The stream of a document

The server of one document: the database, the cache, the handlers of POSTs that
have committed and not noted their commit yet, and one stream.  Handlers resume
in any order, and the poller and the stream run at any time between them.
-/

namespace DoomDraft.Server

open Document Pancy

/-- The loop of `handle_stream_doc` over a copy of the cached operations: what
it has seen and what it emits. -/
def scanOps (lastSeen : Int) : List CommittedOp → Int × List CommittedOp
  | [] => (lastSeen, [])
  | c :: ops =>
      if c.version ≤ lastSeen then scanOps lastSeen ops
      else
        let (seen, emitted) := scanOps c.version ops
        (seen, c :: emitted)

/-- The server of a document with one stream. -/
structure DocServer where
  docId : ByteString
  db : PancyDb
  /-- The operations committed for the document, oldest first. -/
  committed : List CommittedOp
  cache : PerDocCache
  /-- What the handlers of committed POSTs are about to note. -/
  handlers : List CommittedOp
  lastSeen : Int
  emitted : List CommittedOp

/-- What may happen next. -/
inductive StreamAction where
  | put (put : StoredPut) (label : ByteString)
  | noteLabel (cidHash : Nat) (label : ByteString)
  | noteCommitted (position : Nat)
  | refresh
  | scan

/-- The action commits an operation of the document. -/
def StreamAction.commitsTo (docId : ByteString) : StreamAction → Bool
  | .put (.op stored) _ => stored.docId = docId
  | _ => false

namespace DocServer

/-- An empty database, and a stream that resumes after version `resumeFrom`. -/
def start (docId : ByteString) (resumeFrom : Int) : DocServer where
  docId := docId
  db := PancyDb.empty
  committed := []
  cache := PerDocCache.empty
  handlers := []
  lastSeen := resumeFrom
  emitted := []

/-- The operation of a put at the version under which it was stored. -/
def commitOf (w : DocServer) (put : OpPut) : CommittedOp :=
  put.committed (w.db.processPut put.request).2.version

/-- One action; `none` when the action is not enabled.  An operation of the
document is put at a key that is not taken. -/
def step (w : DocServer) : StreamAction → Option DocServer
  | .put (.op put) label =>
      let stored := { w with db := (w.db.processPut put.request).1 }
      if put.docId ≠ w.docId then some stored
      else if (w.db.db.find? put.key).isSome then none
      else
        some { stored with
          committed := w.committed ++ [w.commitOf put]
          handlers := w.handlers ++ [{ w.commitOf put with clientIdLabel := label }] }
  | .put (.other req _) _ => some { w with db := (w.db.processPut req).1 }
  | .noteLabel cidHash label => some { w with cache := w.cache.noteClientLabel cidHash label }
  | .noteCommitted position =>
      match w.handlers[position]? with
      | none => none
      | some c =>
          some { w with
            cache := w.cache.noteCommitted c
            handlers := w.handlers.eraseIdx position }
  | .refresh => some { w with cache := w.cache.refreshOpsFromDb w.db w.docId }
  | .scan =>
      let (seen, emitted) := scanOps w.lastSeen w.cache.ops
      some { w with lastSeen := seen, emitted := w.emitted ++ emitted }

/-- Perform actions in order. -/
def perform (w : DocServer) (actions : List StreamAction) : Option DocServer :=
  Transition.perform step w actions

end DocServer

/-! ## A scan of operations in order -/

theorem fst_scanOps_ge (lastSeen : Int) (ops : List CommittedOp) :
    lastSeen ≤ (scanOps lastSeen ops).1 ∧ ∀ c ∈ ops, c.version ≤ (scanOps lastSeen ops).1 := by
  induction ops generalizing lastSeen with
  | nil => exact ⟨le_rfl, by simp⟩
  | cons c ops ih =>
      rw [scanOps, List.forall_mem_cons]
      split
      · rename_i seen
        obtain ⟨above, covers⟩ := ih lastSeen
        exact ⟨above, seen.trans above, covers⟩
      · rename_i unseen
        obtain ⟨above, covers⟩ := ih c.version
        exact ⟨(Int.le_of_lt (not_le.mp unseen)).trans above, above, covers⟩

theorem fst_scanOps_mem (lastSeen : Int) (ops : List CommittedOp) :
    (scanOps lastSeen ops).1 = lastSeen ∨ ∃ c ∈ ops, c.version = (scanOps lastSeen ops).1 := by
  induction ops generalizing lastSeen with
  | nil => exact Or.inl rfl
  | cons c ops ih =>
      rw [scanOps]
      split
      · rcases ih lastSeen with same | ⟨last, member, version⟩
        · exact Or.inl same
        · exact Or.inr ⟨last, List.mem_cons_of_mem c member, version⟩
      · rcases ih c.version with same | ⟨last, member, version⟩
        · exact Or.inr ⟨c, List.mem_cons_self, same.symm⟩
        · exact Or.inr ⟨last, List.mem_cons_of_mem c member, version⟩

/-- A scan emits what is newer than what the stream has seen. -/
theorem snd_scanOps {ops : List CommittedOp} (sorted : KeySorted CommittedOp.version ops)
    (lastSeen : Int) : (scanOps lastSeen ops).2 = ops.filter (lastSeen < ·.version) := by
  induction ops generalizing lastSeen with
  | nil => rfl
  | cons c ops ih =>
      obtain ⟨later, rest⟩ := List.pairwise_cons.mp sorted
      rw [scanOps, List.filter_cons]
      split
      · rename_i seen
        rw [if_neg (by simpa using seen)]
        exact ih rest lastSeen
      · rename_i unseen
        rw [if_pos (by simpa using unseen)]
        refine congrArg (c :: ·) ((ih rest c.version).trans ?_)
        apply List.filter_congr
        intro d member
        have after := later d member
        have first := not_le.mp unseen
        simp only [after, first.trans after]

end DoomDraft.Server
