import DoomDraft.Document.State
import DoomDraft.Foundation.Transition

/-!
# A simulated editor

An editor of `collab_model` works in turns: it integrates the committed
operations of all editors, makes a random edit, and puts its first pending
operation.  To find the next committed operation it asks for the next one of each
editor, one request after the other, and takes the one with the least version.

Here one editor runs beside a database in which the other editors commit at any
time.  Which replica is asked decides only whether the answer comes in time, so
it is not part of the state.
-/

namespace DoomDraft.Collab

open Document Pancy

variable {n : Nat}

/-- `editor_state`. -/
structure EditorState (n : Nat) where
  localText : ByteString
  pending : List (DocOp Byte)
  pendingSeqs : List Nat
  peerNextSeq : Fin n → Nat
  nextSeq : Nat

/-- The operation that a round of `sync_committed_ops` has picked so far. -/
structure Best (n : Nat) where
  peer : Fin n
  seq : Nat
  version : Int
  op : DocOp Byte

/-- One answered request in a round of `sync_committed_ops`. -/
def considerNext (best : Option (Best n)) (peer : Fin n) (seq : Nat) (resp : GetResponse) :
    Option (Best n) :=
  if resp.errcode ≠ .ok ∨ resp.value = [] then best
  else
    match deserialize resp.value with
    | none => best
    | some committed =>
        let found : Best n := ⟨peer, seq, resp.version, committed⟩
        match best with
        | none => some found
        | some old =>
            if resp.version < old.version ∨ (resp.version = old.version ∧ peer < old.peer) then
              some found
            else best

namespace EditorState

/-- No operation has been made or integrated. -/
def start (n : Nat) : EditorState n where
  localText := []
  pending := []
  pendingSeqs := []
  peerNextSeq := fun _ => 0
  nextSeq := 0

/-- The end of a round of `sync_committed_ops` that has picked an operation. -/
def integrate (es : EditorState n) (cid : Fin n) (best : Best n) : EditorState n :=
  let es :=
    if best.peer = cid then
      if es.pending ≠ [] ∧ es.pendingSeqs.head? = some best.seq then
        { es with pending := es.pending.tail, pendingSeqs := es.pendingSeqs.tail }
      else es
    else
      { es with
        localText := applyOp es.localText best.op
        pending := es.pending.map fun p => transform p best.op }
  { es with
    peerNextSeq := Function.update es.peerNextSeq best.peer (es.peerNextSeq best.peer + 1) }

/-- A random edit that step 2 of `editor` can make. -/
def CanMake (es : EditorState n) : DocOp Byte → Prop
  | .insert pos text => pos ≤ es.localText.length ∧ 1 ≤ text.length ∧ text.length ≤ 5 ∧
      ∀ c ∈ text, (byte 'a').val ≤ c.val ∧ c.val ≤ (byte 'z').val
  | .delete pos len => pos < es.localText.length ∧ 1 ≤ len ∧
      len ≤ min 5 (es.localText.length - pos)

instance (es : EditorState n) : ∀ op, Decidable (es.CanMake op)
  | .insert _ _ => inferInstanceAs (Decidable (_ ∧ _))
  | .delete _ _ => inferInstanceAs (Decidable (_ ∧ _))

/-- Step 2 of `editor`. -/
def makeEdit (es : EditorState n) (op : DocOp Byte) : EditorState n :=
  { es with
    localText := applyOp es.localText op
    pending := es.pending ++ [op]
    pendingSeqs := es.pendingSeqs ++ [es.nextSeq]
    nextSeq := es.nextSeq + 1 }

end EditorState

/-- Where the coroutine of an editor is. -/
inductive Phase (n : Nat) where
  /-- In a round of `sync_committed_ops`, before the request for editor `peer`. -/
  | sync (peer : Nat) (best : Option (Best n))
  | edit
  | submit
  | pause

/-- What the current round has picked. -/
def Phase.best? : Phase n → Option (Best n)
  | .sync _ best => best
  | _ => none

/-- An editor beside the database. -/
structure World (n : Nat) where
  docId : ByteString
  cid : Fin n
  serial : Nat
  es : EditorState n
  phase : Phase n
  db : PancyDb
  /-- How many operations of each editor have been committed. -/
  committed : Fin n → Nat
  /-- The versions at which the editor has integrated operations, in order. -/
  integrated : List Int

/-- What may happen next. -/
inductive Action (n : Nat) where
  /-- A request of a round is executed and answered in time. -/
  | get
  /-- A request of a round is not answered in time. -/
  | timeout
  /-- A round has asked for all editors. -/
  | endRound
  /-- Step 2 of `editor`, with an edit or without. -/
  | edit (op : Option (DocOp Byte))
  /-- Step 3 of `editor`: the first pending operation is put, which is repeated
  until it has been executed and answered. -/
  | submit
  /-- The pause of step 4 is over. -/
  | wake
  /-- Another editor puts its next operation, or its last one again. -/
  | peerPut (peer : Fin n) (again : Bool) (op : DocOp Byte) (serial : Nat)

namespace World

/-- An editor that begins its first round on an empty database. -/
def start (docId : ByteString) (cid : Fin n) : World n where
  docId := docId
  cid := cid
  serial := cid
  es := EditorState.start n
  phase := .sync 0 none
  db := PancyDb.empty
  committed := fun _ => 0
  integrated := []

/-- `serial_step`. -/
def serialStep : Nat := 4096

/-- The key under which an editor has put its operation. -/
def key (w : World n) (peer : Fin n) (seq : Nat) : ByteString :=
  opKey w.docId peer seq

/-- The put of an operation is executed. -/
def executePut (w : World n) (peer : Fin n) (seq : Nat) (op : DocOp Byte) (serial : Nat) :
    World n :=
  { w with
    db := (w.db.processPut { serial := serial, key := w.key peer seq, value := serialize op }).1
    committed := Function.update w.committed peer (max (w.committed peer) (seq + 1)) }

/-- One action; `none` when the action is not enabled. -/
def step (w : World n) : Action n → Option (World n)
  | .get =>
      match w.phase with
      | .sync peer best =>
          if h : peer < n then
            let seq := w.es.peerNextSeq ⟨peer, h⟩
            let serial := w.serial + serialStep
            let resp := w.db.processGet ⟨serial, w.key ⟨peer, h⟩ seq⟩
            some { w with
              serial := serial
              phase := .sync (peer + 1) (considerNext best ⟨peer, h⟩ seq resp) }
          else none
      | _ => none
  | .timeout =>
      match w.phase with
      | .sync peer best =>
          if peer < n then
            some { w with serial := w.serial + serialStep, phase := .sync (peer + 1) best }
          else none
      | _ => none
  | .endRound =>
      match w.phase with
      | .sync peer best =>
          if peer < n then none
          else
            match best with
            | none => some { w with phase := .edit }
            | some best =>
                some { w with
                  es := w.es.integrate w.cid best
                  phase := .sync 0 none
                  integrated := w.integrated ++ [best.version] }
      | _ => none
  | .edit op =>
      match w.phase, op with
      | .edit, none => some { w with phase := .submit }
      | .edit, some op =>
          if w.es.CanMake op then some { w with es := w.es.makeEdit op, phase := .submit } else none
      | _, _ => none
  | .submit =>
      match w.phase, w.es.pending, w.es.pendingSeqs with
      | .submit, op :: _, seq :: _ =>
          let serial := w.serial + serialStep
          some { w.executePut w.cid seq op serial with serial := serial, phase := .pause }
      | .submit, [], _ => some { w with phase := .pause }
      | _, _, _ => none
  | .wake =>
      match w.phase with
      | .pause => some { w with phase := .sync 0 none }
      | _ => none
  | .peerPut peer again op serial =>
      if peer = w.cid then none
      else
        match again, w.committed peer with
        | false, seq => some (w.executePut peer seq op serial)
        | true, seq + 1 => some (w.executePut peer seq op serial)
        | true, 0 => none

/-- What an action does, by its kind and the phase that it is taken in. -/
inductive Steps (w : World n) : Action n → World n → Prop
  | get (peer : Nat) (best : Option (Best n)) (inRound : w.phase = .sync peer best)
      (isPeer : peer < n) :
      Steps w .get
        { w with
          serial := w.serial + serialStep
          phase := .sync (peer + 1) (considerNext best ⟨peer, isPeer⟩
            (w.es.peerNextSeq ⟨peer, isPeer⟩)
            (w.db.processGet ⟨w.serial + serialStep,
              w.key ⟨peer, isPeer⟩ (w.es.peerNextSeq ⟨peer, isPeer⟩)⟩)) }
  | timeout (peer : Nat) (best : Option (Best n)) (inRound : w.phase = .sync peer best) :
      Steps w .timeout
        { w with serial := w.serial + serialStep, phase := .sync (peer + 1) best }
  | roundWithout : Steps w .endRound { w with phase := .edit }
  | roundWith (best : Best n) (picked : best ∈ w.phase.best?) :
      Steps w .endRound
        { w with
          es := w.es.integrate w.cid best
          phase := .sync 0 none
          integrated := w.integrated ++ [best.version] }
  | noEdit : Steps w (.edit none) { w with phase := .submit }
  | edit (op : DocOp Byte) :
      Steps w (.edit (some op)) { w with es := w.es.makeEdit op, phase := .submit }
  | submit (op : DocOp Byte) (rest : List (DocOp Byte)) (seq : Nat)
      (pending : w.es.pending = op :: rest) (first : seq ∈ w.es.pendingSeqs.head?) :
      Steps w .submit
        { w.executePut w.cid seq op (w.serial + serialStep) with
          serial := w.serial + serialStep, phase := .pause }
  | noSubmit : Steps w .submit { w with phase := .pause }
  | wake : Steps w .wake { w with phase := .sync 0 none }
  | peerPut (peer : Fin n) (again : Bool) (op : DocOp Byte) (serial seq : Nat)
      (other : peer ≠ w.cid)
      (inOrder : seq ≤ w.committed peer ∧ w.committed peer ≤ seq + 1) :
      Steps w (.peerPut peer again op serial) (w.executePut peer seq op serial)

theorem steps_of_step {w v : World n} {action : Action n} (stepped : w.step action = some v) :
    w.Steps action v := by
  cases action with
  | get =>
      simp only [step] at stepped
      split at stepped
      · rename_i peer best inRound
        split at stepped
        · rename_i isPeer
          obtain rfl := Option.some.inj stepped
          exact .get peer best inRound isPeer
        · contradiction
      · contradiction
  | timeout =>
      simp only [step] at stepped
      split at stepped
      · rename_i peer best inRound
        split at stepped
        · obtain rfl := Option.some.inj stepped
          exact .timeout peer best inRound
        · contradiction
      · contradiction
  | endRound =>
      simp only [step] at stepped
      split at stepped
      · rename_i peer best inRound
        split at stepped
        · contradiction
        · split at stepped
          · obtain rfl := Option.some.inj stepped
            exact .roundWithout
          · rename_i best
            obtain rfl := Option.some.inj stepped
            exact .roundWith best (by rw [inRound]; rfl)
      · contradiction
  | edit op =>
      simp only [step] at stepped
      split at stepped
      · obtain rfl := Option.some.inj stepped
        exact .noEdit
      · split at stepped
        · obtain rfl := Option.some.inj stepped
          exact .edit _
        · contradiction
      · contradiction
  | submit =>
      simp only [step] at stepped
      split at stepped
      · rename_i op rest seq seqs inSubmit pending first
        obtain rfl := Option.some.inj stepped
        exact .submit op rest seq pending (by rw [first]; rfl)
      · obtain rfl := Option.some.inj stepped
        exact .noSubmit
      · contradiction
  | wake =>
      simp only [step] at stepped
      split at stepped
      · obtain rfl := Option.some.inj stepped
        exact .wake
      · contradiction
  | peerPut peer again op serial =>
      simp only [step] at stepped
      split at stepped
      · contradiction
      · rename_i other
        split at stepped
        · obtain rfl := Option.some.inj stepped
          exact .peerPut peer _ op serial _ other ⟨le_rfl, Nat.le_succ _⟩
        · rename_i seq count
          obtain rfl := Option.some.inj stepped
          exact .peerPut peer _ op serial seq other (by omega)
        · contradiction

/-- Perform actions in order. -/
def perform (w : World n) (actions : List (Action n)) : Option (World n) :=
  Transition.perform step w actions

/-- The cell of the operation of an editor. -/
def cellAt (w : World n) (peer : Fin n) (seq : Nat) : Option Vv :=
  w.db.db.find? (w.key peer seq)

/-- Where a round ends with an operation, the next operation of no other editor
has been committed at a smaller version. -/
def PicksLeast (w : World n) : Action n → Prop
  | .endRound => ∀ best ∈ w.phase.best?, ∀ peer, peer ≠ best.peer →
      ∀ cell ∈ w.cellAt peer (w.es.peerNextSeq peer), best.version ≤ cell.version
  | _ => True

instance (w : World n) : ∀ action, Decidable (w.PicksLeast action)
  | .endRound => inferInstanceAs (Decidable (∀ best ∈ w.phase.best?, _))
  | .get | .timeout | .edit _ | .submit | .wake | .peerPut _ _ _ _ => isTrue trivial

end World

end DoomDraft.Collab
