import DoomDraft.Browser.Editor
import DoomDraft.Foundation.Transition

/-!
# A browser session

One editor, the log of the document it edits, and what is under way between
them: POSTs that the server has not committed yet, responses that have not
arrived, and a stream that delivers the log in order.  POSTs and responses may
be delayed, overtake each other and get lost; other editors commit at any time.
-/

namespace DoomDraft.Browser

open Document

universe u

/-- A POST under way; it is awaited until its `fetch` fails. -/
structure Post (α : Type u) where
  entry : PendingOp α
  awaited : Bool
  deriving DecidableEq

/-- The response to a committed POST. -/
structure PostResponse where
  seq : Nat
  version : Nat
  deriving DecidableEq

/-- An editor and its document. -/
structure Session (α : Type u) where
  editor : Editor α
  /-- The committed operations of the document, oldest first. -/
  log : List (OpEvent α)
  /-- How much of the log the stream has delivered. -/
  delivered : Nat
  posts : List (Post α)
  responses : List PostResponse

/-- What may happen next. -/
inductive Action (α : Type u) where
  | input (text : List α)
  | commitPost (position version : Nat)
  | commitForeign (event : OpEvent α)
  | deliverEvent
  | deliverResponse (position : Nat)
  | garbleResponse (position : Nat)
  | failPost (position : Nat)
  | failResponse (position : Nat)
  deriving DecidableEq

namespace Session

variable {α : Type u}

/-- The session in which a handler of the editor has run. -/
def handle (w : Session α) (outcome : Editor α × Option (PendingOp α)) : Session α :=
  { w with
    editor := outcome.1
    posts := w.posts ++ outcome.2.toList.map (⟨·, true⟩) }

/-- The session in which a commit has been appended to the log. -/
def commit (w : Session α) (event : OpEvent α) : Session α :=
  { w with log := w.log ++ [event] }

/-- Every commit of the log has a smaller version. -/
def IsNewest (w : Session α) (version : Nat) : Prop :=
  ∀ event ∈ w.log, event.version < version

instance (w : Session α) (version : Nat) : Decidable (w.IsNewest version) :=
  inferInstanceAs (Decidable (∀ event ∈ w.log, event.version < version))

/-- The event that the commit of a POST puts into the log: the operation as it
was POSTed. -/
def eventOf (w : Session α) (entry : PendingOp α) (version : Nat) : OpEvent α :=
  ⟨version, w.editor.clientId, entry.seq, entry.op⟩

/-- The editor `s` has loaded `text` at `version` of a document with this log. -/
def load (s : Editor α) (text : List α) (version : Nat) (log : List (OpEvent α)) : Session α where
  editor := s.connect text version
  log := log
  delivered := 0
  posts := []
  responses := []

variable [DecidableEq α]

/-- One action of the session; `none` when the action is not enabled. -/
def step (w : Session α) : Action α → Option (Session α)
  | .input text => some (w.handle (w.editor.onInput text))
  | .commitPost position version =>
      match w.posts[position]? with
      | none => none
      | some post =>
          if w.IsNewest version then
            some { w.commit (w.eventOf post.entry version) with
              posts := w.posts.eraseIdx position
              responses :=
                w.responses ++ if post.awaited then [⟨post.entry.seq, version⟩] else [] }
          else none
  | .commitForeign event =>
      if w.IsNewest event.version then some (w.commit event) else none
  | .deliverEvent =>
      match w.log[w.delivered]? with
      | none => none
      | some event =>
          some { w.handle (w.editor.handleSSEOp event) with delivered := w.delivered + 1 }
  | .deliverResponse position =>
      match w.responses[position]? with
      | none => none
      | some response =>
          some ({ w with responses := w.responses.eraseIdx position }.handle
            (w.editor.receiveResponse response.seq (some response.version)))
  | .garbleResponse position =>
      match w.responses[position]? with
      | none => none
      | some response =>
          some ({ w with responses := w.responses.eraseIdx position }.handle
            (w.editor.receiveResponse response.seq none))
  | .failPost position =>
      match w.posts[position]? with
      | none => none
      | some post =>
          if post.awaited then
            some ({ w with posts := w.posts.set position { post with awaited := false } }.handle
              (w.editor.postFailed post.entry.seq))
          else none
  | .failResponse position =>
      match w.responses[position]? with
      | none => none
      | some response =>
          some ({ w with responses := w.responses.eraseIdx position }.handle
            (w.editor.postFailed response.seq))

/-- Perform actions in order. -/
def perform (w : Session α) (actions : List (Action α)) : Option (Session α) :=
  Transition.perform step w actions

end Session

end DoomDraft.Browser
