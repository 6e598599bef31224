import DoomDraft.Foundation.EventBlocks
import DoomDraft.Server.Cursors
import DoomDraft.Server.Delivery
import DoomDraft.Server.Request
import DoomDraft.Server.SseFrame

/-!
# A browser that subscribes to a document

A browser reads the stream of a document over one connection after another.  A
connection may break after any byte, and the next request names an event id that
the browser has been given.  The server resumes behind that version, and the
editor passes over what it has already, be it from the stream or from the answer to
a POST of its own.
-/

namespace DoomDraft.Server

open Document EventStream

/-! ## Frames -/

/-- `body` in `sse_cursor_frame`. -/
def cursorData (cur : CursorEntry) : ByteString :=
  ascii ['\x7b', '"', 'c', 'l', 'i', 'e', 'n', 't', '_', 'i', 'd', '"', ':', '"'] ++
    jsonEscape cur.clientId ++ ascii ['"', ',', '"', 'p', 'o', 's', '"', ':'] ++
    decimalInt cur.pos ++ ascii [',', '"', 'v', 'e', 'r', 's', 'i', 'o', 'n', '"', ':'] ++
    decimalInt cur.version ++ ascii ['\x7d']

/-- `sse_cursor_frame`. -/
def sseCursorFrame (cur : CursorEntry) : ByteString :=
  ascii ['e', 'v', 'e', 'n', 't', ':', ' ', 'c', 'u', 'r', 's', 'o', 'r', '\n', 'd', 'a', 't', 'a',
    ':', ' '] ++ cursorData cur ++ ascii ['\n', '\n']

/-- What `handle_stream_doc` writes behind the head of its response. -/
inductive Frame where
  | retry
  | op (c : CommittedOp)
  | cursor (cur : CursorEntry)
  | ping

namespace Frame

/-- The bytes of a frame. -/
def text : Frame → ByteString
  | .retry => ascii ['r', 'e', 't', 'r', 'y', ':', ' ', '1', '0', '0', '0', '\n', '\n']
  | .op c => sseOpFrame c
  | .cursor cur => sseCursorFrame cur
  | .ping => ascii ['e', 'v', 'e', 'n', 't', ':', ' ', 'p', 'i', 'n', 'g', '\n', 'd', 'a', 't', 'a',
      ':', ' ', '\x7b', '\x7d', '\n', '\n']

/-- The operation of a frame. -/
def op? : Frame → Option CommittedOp
  | .op c => some c
  | _ => none

/-- The cursor of a frame. -/
def cursor? : Frame → Option CursorEntry
  | .cursor cur => some cur
  | _ => none

end Frame

/-! ## The browser -/

/-- The version of the operation in an event. -/
def eventVersion (event : Event) : Option Int :=
  if event.type = ascii ['o', 'p'] then
    match (Json.decode event.data).bind
        (member (ascii ['v', 'e', 'r', 's', 'i', 'o', 'n'])) with
    | some (.number version 0) => some version
    | _ => none
  else none

/-- What the editor is handed: an event, or the version in the answer to the POST that is
in flight, of the operation at the front of the pending ones. -/
inductive Incoming where
  | streamed (event : Event)
  | acknowledged (version : Int)

namespace Incoming

/-- The version that the editor compares with its own. -/
def version : Incoming → Option Int
  | .streamed event => eventVersion event
  | .acknowledged version => some version

/-- The id that an event gives to the browser. -/
def lastEventId : Incoming → Option ByteString
  | .streamed event => some event.lastEventId
  | .acknowledged _ => none

/-- What carries a committed operation to the editor: its event, or its version. -/
def Carries : Incoming → CommittedOp → Prop
  | .streamed event, c => event = opEvent c
  | .acknowledged version, c => version = c.version

end Incoming

/-- The checks against `serverVersion` in `handleSSEOp` and `ackPostIfStillInflight`, over
what the editor is handed: the version that it has at the end, and what it does not
ignore. -/
def freshOps (serverVersion : Int) : List Incoming → Int × List Incoming
  | [] => (serverVersion, [])
  | incoming :: rest =>
      match incoming.version with
      | none => freshOps serverVersion rest
      | some version =>
          if version ≤ serverVersion then freshOps serverVersion rest
          else
            let (seen, taken) := freshOps version rest
            (seen, incoming :: taken)

/-- The header `Last-Event-ID`. -/
def lastEventIdName : ByteString :=
  ascii ['l', 'a', 's', 't', '-', 'e', 'v', 'e', 'n', 't', '-', 'i', 'd']

/-- A request for the stream of a document. -/
structure StreamRequest (docId : ByteString) where
  request : HttpRequest
  formed : request.WellFormed
  isGet : request.method = methodGet
  isStream : request.path =
    ascii ['/', 'd', 'o', 'c', '/'] ++ docId ++ ascii ['/', 's', 't', 'r', 'e', 'a', 'm']

/-- The id in the request, empty if there is none. -/
def StreamRequest.lastEventId {docId : ByteString} (req : StreamRequest docId) : ByteString :=
  req.request.header lastEventIdName

/-! ## The two of them -/

/-- The server of a document with the stream of a browser. -/
structure Subscription where
  server : DocServer
  cursors : CursorCache
  lastCursorEpoch : Nat
  /-- What has been written on the present connection. -/
  frames : List Frame
  /-- How many events of the present connection the editor has been handed. -/
  heard : Nat
  /-- What the editor has been handed. -/
  received : List Incoming
  /-- The id in the request of the present connection. -/
  lastEventId : ByteString

/-- What may happen next. -/
inductive SubscriptionAction (docId : ByteString) where
  | serve (action : StreamAction)
  | noteCursor (version : Int) (clientId : ByteString) (pos : Int)
  | refreshCursors
  | scanCursors
  | ping
  /-- The first bytes of the present connection have come in. -/
  | arrive (arrived : Nat)
  /-- A POST of the editor is answered with the version of its commit. -/
  | acknowledge (version : Int)
  /-- The connection breaks, and the browser connects again. -/
  | reconnect (req : StreamRequest docId)

/-- The operations that an action emits. -/
def DocServer.emits (w : DocServer) : StreamAction → List CommittedOp
  | .scan => (scanOps w.lastSeen w.cache.ops).2
  | _ => []

namespace Subscription

/-- A new server and a browser that has not read anything. -/
def start (docId : ByteString) : Subscription where
  server := DocServer.start docId 0
  cursors := ⟨OrderedMap.empty, 0⟩
  lastCursorEpoch := 0
  frames := [.retry]
  heard := 0
  received := []
  lastEventId := []

/-- The events of the first bytes on the present connection. -/
def arrivedEvents (w : Subscription) (arrived : Nat) : List Event :=
  Reader.events ⟨[], [], w.lastEventId⟩ (lines [] ((w.frames.flatMap Frame.text).take arrived))

/-- One action; `none` when the action is not enabled.  A browser sends no id but
one of the events that have come in. -/
def step {docId : ByteString} (w : Subscription) : SubscriptionAction docId → Option Subscription
  | .serve action =>
      (w.server.step action).map fun server =>
        { w with server := server, frames := w.frames ++ (w.server.emits action).map .op }
  | .noteCursor version clientId pos =>
      some { w with cursors := w.cursors.noteCursor version clientId pos }
  | .refreshCursors =>
      some { w with cursors := w.cursors.refreshCursorsFromDb w.server.db docId }
  | .scanCursors =>
      if w.cursors.cursorEpoch = w.lastCursorEpoch then some w
      else
        some { w with
          lastCursorEpoch := w.cursors.cursorEpoch
          frames := w.frames ++ w.cursors.cursors.entries.map fun entry => .cursor entry.2 }
  | .ping => some { w with frames := w.frames ++ [.ping] }
  | .arrive arrived =>
      let events := (w.arrivedEvents arrived).drop w.heard
      some { w with
        heard := w.heard + events.length
        received := w.received ++ events.map .streamed }
  | .acknowledge version =>
      if w.server.committed.any fun c => c.version = version then
        some { w with received := w.received ++ [.acknowledged version] }
      else none
  | .reconnect req =>
      if req.lastEventId = [] ∨ req.lastEventId ∈ w.received.filterMap Incoming.lastEventId then
        match dispatch req.request.received with
        | .stream _ resumeFrom =>
            some { w with
              server := { w.server with lastSeen := resumeFrom, emitted := [] }
              lastCursorEpoch := 0
              frames := [.retry]
              heard := 0
              lastEventId := req.lastEventId }
        | _ => none
      else none

/-- Perform actions in order. -/
def perform {docId : ByteString} (w : Subscription) (actions : List (SubscriptionAction docId)) :
    Option Subscription :=
  Transition.perform step w actions

/-- `serverVersion` of an editor that has loaded version `base`. -/
def serverVersion (w : Subscription) (base : Int) : Int :=
  (freshOps base w.received).1

/-- The scan of the stream, or an answer, passes over a commit. -/
def skips {docId : ByteString} (base : Int) (w : Subscription) : SubscriptionAction docId → Bool
  | .serve action => w.server.skips action
  | .acknowledge version =>
      w.server.committed.any fun c => w.serverVersion base < c.version ∧ c.version < version
  | _ => false

end Subscription

/-! ## The events of frames -/

namespace Frame

/-- The lines of a frame without the blank one. -/
def lines : Frame → List ByteString
  | .retry => [ascii ['r', 'e', 't', 'r', 'y', ':', ' ', '1', '0', '0', '0']]
  | .op c => [ascii ['i', 'd', ':', ' '] ++ decimalInt c.version,
      ascii ['e', 'v', 'e', 'n', 't', ':', ' ', 'o', 'p'],
      ascii ['d', 'a', 't', 'a', ':', ' '] ++ opData c]
  | .cursor cur => [ascii ['e', 'v', 'e', 'n', 't', ':', ' ', 'c', 'u', 'r', 's', 'o', 'r'],
      ascii ['d', 'a', 't', 'a', ':', ' '] ++ cursorData cur]
  | .ping => [ascii ['e', 'v', 'e', 'n', 't', ':', ' ', 'p', 'i', 'n', 'g'],
      ascii ['d', 'a', 't', 'a', ':', ' ', '\x7b', '\x7d']]

theorem text_eq_block (frame : Frame) : frame.text = block frame.lines := by
  have newline : byte '\n' = 10 := by decide
  cases frame with
  | retry => decide
  | op c => simp [text, lines, sseOpFrame, block, lineBytes, ascii, newline]
  | cursor cur => simp [text, lines, sseCursorFrame, block, lineBytes, ascii, newline]
  | ping => decide

theorem visible_cursorData (cur : CursorEntry) : Visible (cursorData cur) := by
  simp only [cursorData, visible_append_iff, visible_decimalInt, visible_jsonEscape, and_true]
  refine ⟨⟨⟨?_, ?_⟩, ?_⟩, ?_⟩ <;> exact visible_of_all (by decide)

theorem visible_lines (frame : Frame) : ∀ line ∈ frame.lines, line ≠ [] ∧ Visible line := by
  cases frame with
  | retry =>
      simp only [lines, List.forall_mem_singleton]
      exact ⟨by decide, visible_of_all (by decide)⟩
  | op c =>
      simp only [lines, List.forall_mem_cons, visible_append_iff]
      refine ⟨⟨by simp [ascii], visible_of_all (by decide), visible_decimalInt c.version⟩,
        ⟨by decide, visible_of_all (by decide)⟩,
        ⟨by simp [ascii], visible_of_all (by decide), visible_opData c⟩, by simp⟩
  | cursor cur =>
      simp only [lines, List.forall_mem_cons, visible_append_iff]
      exact ⟨⟨by decide, visible_of_all (by decide)⟩,
        ⟨by simp [ascii], visible_of_all (by decide), visible_cursorData cur⟩, by simp⟩
  | ping =>
      simp only [lines, List.forall_mem_cons]
      exact ⟨⟨by decide, visible_of_all (by decide)⟩, ⟨by decide, visible_of_all (by decide)⟩,
        by simp⟩

theorem isBlock_lines (frame : Frame) : IsBlock frame.lines where
  nonempty := fun line member => (frame.visible_lines line member).1
  unbroken := by
    intro line member b inLine
    have visible := (frame.visible_lines line member).2 b inLine
    constructor <;> (rintro rfl; contradiction)

/-- The event that a frame dispatches. -/
def event? (id : ByteString) : Frame → Option Event
  | .retry => none
  | .op c => some (opEvent c)
  | .cursor cur => some ⟨ascii ['c', 'u', 'r', 's', 'o', 'r'], cursorData cur, id⟩
  | .ping => some ⟨ascii ['p', 'i', 'n', 'g'], ascii ['\x7b', '\x7d'], id⟩

/-- The id that the reader has behind a frame. -/
def idBehind (id : ByteString) : Frame → ByteString
  | .op c => decimalInt c.version
  | _ => id

/-- The events that frames dispatch. -/
def dispatchAll (id : ByteString) : List Frame → List Event
  | [] => []
  | frame :: frames => (frame.event? id).toList ++ dispatchAll (frame.idBehind id) frames

theorem dispatchAll_append (id : ByteString) (frames more : List Frame) :
    dispatchAll id (frames ++ more) =
      dispatchAll id frames ++ dispatchAll (frames.foldl idBehind id) more := by
  induction frames generalizing id with
  | nil => rfl
  | cons frame frames ih =>
      rw [List.cons_append, dispatchAll, dispatchAll, ih, List.append_assoc]
      rfl

theorem line_retry (reader : Reader) :
    reader.line (ascii ['r', 'e', 't', 'r', 'y', ':', ' ', '1', '0', '0', '0']) =
      (reader, none) :=
  @line_field reader (ascii ['r', 'e', 't', 'r', 'y']) (by decide) (by decide)
    (ascii ['1', '0', '0', '0'])

theorem line_type (reader : Reader) (type : ByteString) :
    reader.line (ascii ['e', 'v', 'e', 'n', 't', ':', ' '] ++ type) =
      ({ reader with type := type }, none) :=
  @line_field reader (ascii ['e', 'v', 'e', 'n', 't']) (by decide) (by decide) type

/-- A named event between blank lines. -/
theorem events_named (id type data : ByteString) (typed : type ≠ []) (rest : List ByteString) :
    Reader.events ⟨[], [], id⟩ ((ascii ['e', 'v', 'e', 'n', 't', ':', ' '] ++ type) ::
        (ascii ['d', 'a', 't', 'a', ':', ' '] ++ data) :: [] :: rest) =
      ⟨type, data, id⟩ :: Reader.events ⟨[], [], id⟩ rest := by
  have blankLine : Reader.line ⟨type, data ++ [10], id⟩ [] =
      (⟨[], [], id⟩, some ⟨type, data, id⟩) := by
    rw [Reader.line, if_pos rfl]
    exact dispatch_data type data id typed
  rw [Reader.events, line_type, Reader.events, line_data, Reader.events, List.nil_append,
    blankLine]
  rfl

/-- A frame dispatches its event and nothing else. -/
theorem events_lines_append (id : ByteString) (frame : Frame) (rest : List ByteString) :
    Reader.events ⟨[], [], id⟩ (frame.lines ++ [] :: rest) =
      (frame.event? id).toList ++ Reader.events ⟨[], [], frame.idBehind id⟩ rest := by
  cases frame with
  | retry =>
      rw [lines, List.singleton_append, Reader.events, line_retry, Reader.events]
      rfl
  | op c =>
      have named := events_named (decimalInt c.version) (ascii ['o', 'p']) (opData c) (by decide)
        rest
      rw [lines, List.cons_append, Reader.events, line_id]
      exact named
  | cursor cur =>
      exact events_named id (ascii ['c', 'u', 'r', 's', 'o', 'r']) (cursorData cur) (by decide) rest
  | ping => exact events_named id (ascii ['p', 'i', 'n', 'g']) _ (by decide) rest

theorem events_text (id : ByteString) (frames : List Frame) :
    Reader.events ⟨[], [], id⟩ (EventStream.lines [] (frames.flatMap text)) =
      dispatchAll id frames := by
  induction frames generalizing id with
  | nil => rfl
  | cons frame frames ih =>
      rw [List.flatMap_cons, text_eq_block, lines_block_append frame.isBlock_lines,
        events_lines_append, ih, dispatchAll]

/-- Whatever number of bytes arrives, the frames that are complete dispatch their
events. -/
theorem exists_events_take_text (frames : List Frame) (arrived : Nat) : ∃ k, ∀ id : ByteString,
    Reader.events ⟨[], [], id⟩ (EventStream.lines [] ((frames.flatMap text).take arrived)) =
      dispatchAll id (frames.take k) := by
  have asBlocks : ∀ frames : List Frame,
      frames.flatMap text = (frames.map lines).flatMap block := by
    intro frames
    rw [List.flatMap_map]
    exact List.flatMap_congr fun frame _ => frame.text_eq_block
  have areBlocks : ∀ texts ∈ frames.map lines, IsBlock texts := by
    intro texts member
    obtain ⟨frame, -, rfl⟩ := List.mem_map.mp member
    exact frame.isBlock_lines
  obtain ⟨k, same⟩ := exists_events_take areBlocks arrived
  refine ⟨k, fun id => ?_⟩
  rw [asBlocks, same, ← List.map_take, ← asBlocks, events_text]

end Frame

end DoomDraft.Server
