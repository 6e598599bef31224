import DoomDraft.Document.Operation
import Mathlib.Data.Finset.Erase
import Mathlib.Data.Finset.Insert

/-!
# The browser editor

The state that `editor.js` keeps in `s`, and the handlers that change it.  A
handler returns the new state together with the POST that it sends, if any.
Strings are lists over an arbitrary alphabet; the textarea, the cursors and the
debug output are left out.
-/

namespace DoomDraft.Browser

open Document

universe u

variable {α : Type u}

/-- An entry of `s.pending`, and the operation and sequence number of a POST. -/
structure PendingOp (α : Type u) where
  seq : Nat
  op : DocOp α
  deriving DecidableEq

/-- The data of an `op` event of the stream. -/
structure OpEvent (α : Type u) where
  version : Nat
  clientId : List α
  seq : Nat
  op : DocOp α
  deriving DecidableEq

/-- The record `s`, the constant `clientId`, and whether `s.es` is set. -/
structure Editor (α : Type u) where
  clientId : List α
  serverText : List α
  pending : List (PendingOp α)
  mySeqs : Finset Nat
  inflightSeq : Option Nat
  nextSeq : Nat
  serverVersion : Nat
  connected : Bool

/-! ## Deltas -/

/-- Length of the longest common prefix. -/
def commonPrefixLength [DecidableEq α] : List α → List α → Nat
  | a :: as, b :: bs => if a = b then commonPrefixLength as bs + 1 else 0
  | _, _ => 0

/-- `computeDelta`. -/
def computeDelta [DecidableEq α] (oldText newText : List α) : List (DocOp α) :=
  if oldText = newText then []
  else
    let i := commonPrefixLength oldText newText
    let j := commonPrefixLength (oldText.drop i).reverse (newText.drop i).reverse
    let oldMid := (oldText.take (oldText.length - j)).drop i
    let newMid := (newText.take (newText.length - j)).drop i
    (if oldMid.isEmpty then [] else [.delete i oldMid.length]) ++
      (if newMid.isEmpty then [] else [.insert i newMid])

namespace Editor

/-! ## Sending -/

/-- `fullText`. -/
def fullText (s : Editor α) : List α :=
  s.pending.foldl (fun text entry => applyOp text entry.op) s.serverText

/-- `sendPendingFront` up to the `fetch`. -/
def sendPendingFront (s : Editor α) : Editor α × Option (PendingOp α) :=
  match s.inflightSeq, s.pending with
  | none, front :: _ =>
      ({ s with inflightSeq := some front.seq, mySeqs := insert front.seq s.mySeqs }, some front)
  | _, _ => (s, none)

/-- The first entry of `s.pending` has this sequence number. -/
def FrontIs (s : Editor α) (seq : Nat) : Prop :=
  (s.pending.head?.map PendingOp.seq) = some seq

instance (s : Editor α) (seq : Nat) : Decidable (s.FrontIs seq) :=
  inferInstanceAs (Decidable ((s.pending.head?.map PendingOp.seq) = some seq))

/-- `ackPostIfStillInflight`. -/
def ackPostIfStillInflight (s : Editor α) (version seq : Nat) : Editor α × Option (PendingOp α) :=
  if s.inflightSeq ≠ some seq then s.sendPendingFront
  else
    match s.pending with
    | [] => { s with inflightSeq := none }.sendPendingFront
    | front :: rest =>
        if front.seq ≠ seq then { s with inflightSeq := none }.sendPendingFront
        else if version ≤ s.serverVersion then { s with inflightSeq := none }.sendPendingFront
        else
          { s with
            serverText := applyOp s.serverText front.op
            pending := rest
            mySeqs := s.mySeqs.erase seq
            inflightSeq := none
            serverVersion := version }.sendPendingFront

/-- The rest of `sendPendingFront` when the response has arrived; there is no
version when its body is malformed. -/
def receiveResponse (s : Editor α) (seq : Nat) : Option Nat → Editor α × Option (PendingOp α)
  | none => (s, none)
  | some version => if 0 < version then s.ackPostIfStillInflight version seq else (s, none)

/-- The rest of `sendPendingFront` when the POST has failed. -/
def postFailed (s : Editor α) (seq : Nat) : Editor α × Option (PendingOp α) :=
  if s.inflightSeq ≠ some seq ∨ ¬ s.FrontIs seq then s.sendPendingFront
  else ({ s with mySeqs := s.mySeqs.erase seq, inflightSeq := none }, none)

/-! ## Receiving -/

/-- The event is the commit of the first pending operation. -/
def OwnsEvent (s : Editor α) (event : OpEvent α) : Prop :=
  s.FrontIs event.seq ∧ event.seq ∈ s.mySeqs ∧ event.clientId = s.clientId

instance [DecidableEq α] (s : Editor α) (event : OpEvent α) : Decidable (s.OwnsEvent event) :=
  inferInstanceAs (Decidable (s.FrontIs event.seq ∧ event.seq ∈ s.mySeqs ∧ _))

/-- `handleSSEOp`. -/
def handleSSEOp [DecidableEq α] (s : Editor α) (event : OpEvent α) :
    Editor α × Option (PendingOp α) :=
  if event.version ≤ s.serverVersion then (s, none)
  else if s.OwnsEvent event then
    { s with
      serverText := applyOp s.serverText event.op
      pending := s.pending.tail
      mySeqs := s.mySeqs.erase event.seq
      inflightSeq := none
      serverVersion := event.version }.sendPendingFront
  else
    ({ s with
        pending := s.pending.map fun entry => { entry with op := transform entry.op event.op }
        serverText := applyOp s.serverText event.op
        serverVersion := event.version }, none)

/-! ## Editing and connecting -/

/-- `s.pending.push`. -/
def enqueue (s : Editor α) (op : DocOp α) : Editor α :=
  { s with pending := s.pending ++ [⟨s.nextSeq, op⟩], nextSeq := s.nextSeq + 1 }

/-- `onInput`, with the text of the textarea. -/
def onInput [DecidableEq α] (s : Editor α) (cur : List α) : Editor α × Option (PendingOp α) :=
  if !s.connected then (s, none)
  else if cur = s.fullText then (s, none)
  else ((computeDelta s.fullText cur).foldl enqueue s).sendPendingFront

/-- `connect`, once the document has been loaded and the stream opened. -/
def connect (s : Editor α) (text : List α) (version : Nat) : Editor α :=
  { s with
    serverText := text
    pending := []
    mySeqs := ∅
    inflightSeq := none
    serverVersion := version
    connected := true }

end Editor

end DoomDraft.Browser
