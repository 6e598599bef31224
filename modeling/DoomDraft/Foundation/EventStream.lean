import DoomDraft.Foundation.Bytes
import Mathlib.Data.List.TakeWhile

/-!
# Event streams

The line grammar of `text/event-stream` and the events that a reader of the
stream dispatches.  A line ends at LF, at CR or at CRLF, and a blank line ends an
event; what is not ended when the stream ends is dropped.
-/

namespace DoomDraft.EventStream

/-- The lines of a stream behind the beginning `pending` of its first line. -/
def lines (pending : ByteString) : ByteString → List ByteString
  | [] => []
  | [c] => if c = 10 ∨ c = 13 then [pending] else []
  | c :: d :: rest =>
      if c = 10 then pending :: lines [] (d :: rest)
      else if c = 13 then
        if d = 10 then pending :: lines [] rest else pending :: lines [] (d :: rest)
      else lines (pending ++ [c]) (d :: rest)

/-- A dispatched event. -/
structure Event where
  type : ByteString
  data : ByteString
  lastEventId : ByteString
  deriving DecidableEq

/-- The buffers of a reader. -/
structure Reader where
  type : ByteString
  data : ByteString
  lastEventId : ByteString
  deriving DecidableEq

namespace Reader

/-- A reader before the stream. -/
def start : Reader where
  type := []
  data := []
  lastEventId := []

/-- Process a field.  The reconnection time is not part of the reader. -/
def field (reader : Reader) (name value : ByteString) : Reader :=
  if name = ascii ['e', 'v', 'e', 'n', 't'] then { reader with type := value }
  else if name = ascii ['d', 'a', 't', 'a'] then
    { reader with data := reader.data ++ value ++ [10] }
  else if name = ascii ['i', 'd'] then
    if 0 ∈ value then reader else { reader with lastEventId := value }
  else reader

/-- Dispatch the event that a blank line ends. -/
def dispatch (reader : Reader) : Reader × Option Event :=
  let blank := { reader with type := [], data := [] }
  if reader.data = [] then (blank, none)
  else
    let type := if reader.type = [] then ascii ['m', 'e', 's', 's', 'a', 'g', 'e'] else reader.type
    let data := if reader.data.getLast? = some 10 then reader.data.dropLast else reader.data
    (blank, some ⟨type, data, reader.lastEventId⟩)

/-- Process a line. -/
def line (reader : Reader) (text : ByteString) : Reader × Option Event :=
  if text = [] then reader.dispatch
  else if text.head? = some (byte ':') then (reader, none)
  else
    let value := (text.dropWhile (· ≠ byte ':')).tail
    let value := if value.head? = some (byte ' ') then value.tail else value
    (reader.field (text.takeWhile (· ≠ byte ':')) value, none)

/-- The events that the lines of a stream dispatch. -/
def events (reader : Reader) : List ByteString → List Event
  | [] => []
  | text :: rest => (reader.line text).2.toList ++ events (reader.line text).1 rest

end Reader

/-- The events of a stream. -/
def events (stream : ByteString) : List Event :=
  Reader.start.events (lines [] stream)

/-! ## Lines that LF ends -/

theorem lines_append {text : ByteString} (unbroken : ∀ b ∈ text, b ≠ 10 ∧ b ≠ 13)
    (pending rest : ByteString) :
    lines pending (text ++ 10 :: rest) = (pending ++ text) :: lines [] rest := by
  induction text generalizing pending with
  | nil =>
      cases rest with
      | nil => simp [lines]
      | cons d rest => simp [lines]
  | cons c text ih =>
      rw [List.forall_mem_cons] at unbroken
      obtain ⟨d, others, split⟩ : ∃ d others, text ++ 10 :: rest = d :: others :=
        List.exists_cons_of_ne_nil (by simp)
      have later := ih unbroken.2 (pending ++ [c])
      rw [split] at later
      rw [List.cons_append, split, lines, if_neg unbroken.1.1, if_neg unbroken.1.2, later]
      simp

/-! ## Fields -/

/-- A line with a field, a colon, a blank and a value. -/
theorem line_field (reader : Reader) {name : ByteString} (named : name ≠ [])
    (noColon : byte ':' ∉ name) (value : ByteString) :
    reader.line (name ++ byte ':' :: byte ' ' :: value) = (reader.field name value, none) := by
  have free : ∀ b ∈ name, decide (b ≠ byte ':') = true := by
    intro b member
    rw [decide_eq_true_eq]
    rintro rfl
    exact noColon member
  have taken : (name ++ byte ':' :: byte ' ' :: value).takeWhile (· ≠ byte ':') = name := by
    rw [List.takeWhile_append_of_pos free]
    simp
  have dropped : (name ++ byte ':' :: byte ' ' :: value).dropWhile (· ≠ byte ':') =
      byte ':' :: byte ' ' :: value := by
    rw [List.dropWhile_append_of_pos free]
    simp
  obtain ⟨c, tail, rfl⟩ := List.exists_cons_of_ne_nil named
  have notComment : ((c :: tail) ++ byte ':' :: byte ' ' :: value).head? ≠ some (byte ':') := by
    simp only [List.cons_append, List.head?_cons, ne_eq, Option.some.injEq]
    rintro rfl
    exact noColon List.mem_cons_self
  rw [Reader.line, if_neg (by simp), if_neg notComment, taken, dropped]
  simp

/-- A data line between blank lines. -/
theorem dispatch_data (type data lastEventId : ByteString) (typed : type ≠ []) :
    Reader.dispatch ⟨type, data ++ [10], lastEventId⟩ =
      (⟨[], [], lastEventId⟩, some ⟨type, data, lastEventId⟩) := by
  simp [Reader.dispatch, typed]

end DoomDraft.EventStream
