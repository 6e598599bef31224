import DoomDraft.Foundation.Search
import DoomDraft.Server.IntFields
import DoomDraft.Server.Registry
import Mathlib.Data.List.DropRight

/-!
# Requests

A connection carries one request.  The server reads until it has the end of the
head, cuts the request line and the headers out of it and reads on until it has
the body.  How the bytes are spread over the reads makes no difference, and a
request that is cut short is not served.
-/

namespace DoomDraft.Server

open Search

/-- The end of a line. -/
def crlf : ByteString :=
  [13, 10]

/-- The end of a head. -/
def headEnd : ByteString :=
  [13, 10, 13, 10]

/-- The loop of `read_request_head`.  A read of nothing is the end of the
connection, and so is the end of the list. -/
def readRequestHead (buf : ByteString) : List ByteString → ByteString × List ByteString
  | [] => (buf, [])
  | bytes :: reads =>
      if (find headEnd buf).isSome ∨ 64 * 1024 < buf.length ∨ bytes = [] then
        (buf, bytes :: reads)
      else readRequestHead (buf ++ bytes) reads

/-- `request_line`. -/
structure RequestLine where
  method : ByteString
  path : ByteString
  bodyOffset : Nat
  deriving DecidableEq

/-- `parse_request_line`; undefined where the source returns an empty method. -/
def parseRequestLine (buf : ByteString) : Option RequestLine :=
  (find headEnd buf).bind fun headerEnd => (find crlf buf).bind fun firstEol =>
    let rl := buf.take firstEol
    (find [byte ' '] rl).bind fun sp1 => (find [byte ' '] (rl.drop (sp1 + 1))).bind fun sp2 =>
      if sp1 = 0 then none
      else some ⟨rl.take sp1, (rl.drop (sp1 + 1)).take sp2, headerEnd + 4⟩

/-- `std::tolower` of a byte. -/
def lowerByte (c : Byte) : Byte :=
  if 65 ≤ c.val ∧ c.val ≤ 90 then c + 32 else c

/-- `ascii_lower`. -/
def asciiLower (s : ByteString) : ByteString :=
  s.map lowerByte

/-- Without the blanks at its end. -/
def trimEnd (s : ByteString) : ByteString :=
  s.rdropWhile (· = byte ' ')

/-- Without the blanks at its ends. -/
def trim (s : ByteString) : ByteString :=
  trimEnd (s.dropWhile (· = byte ' '))

/-- The lines of a head, the first of them behind `pending`. -/
def headLines (pending : ByteString) : ByteString → List ByteString
  | [] => [pending]
  | [c] => [pending ++ [c]]
  | c :: d :: rest =>
      if c = 13 ∧ d = 10 then pending :: headLines [] rest
      else headLines (pending ++ [c]) (d :: rest)

/-- The body of the loop of `find_header` at a line. -/
def headerOf (name line : ByteString) : Option ByteString :=
  (find [byte ':'] line).bind fun colon =>
    if trimEnd (asciiLower (line.take colon)) = asciiLower name then
      some (trim (line.drop (colon + 1)))
    else none

/-- `find_header`; empty if not found. -/
def findHeader (head name : ByteString) : ByteString :=
  ((headLines [] head).findSome? (headerOf name)).getD []

/-- `std::isspace`. -/
def isSpace (c : Byte) : Bool :=
  c = byte ' ' ∨ 9 ≤ c.val ∧ c.val ≤ 13

/-- `std::stoul`; undefined where it throws. -/
def stoul (s : ByteString) : Option Nat :=
  let s := s.dropWhile isSpace
  let signed := s.head? = some (byte '-') ∨ s.head? = some (byte '+')
  let digits := (if signed then s.tail else s).takeWhile isDigit
  if digits = [] ∨ uint64Size ≤ decimalValue digits then none
  else if s.head? = some (byte '-') then
    some ((uint64Size - decimalValue digits) % uint64Size)
  else some (decimalValue digits)

/-- The header `Content-Length`. -/
def contentLengthName : ByteString :=
  ascii ['c', 'o', 'n', 't', 'e', 'n', 't', '-', 'l', 'e', 'n', 'g', 't', 'h']

/-- `want` in `handle_connection`. -/
def contentLength (head : ByteString) : Nat :=
  (stoul (findHeader head contentLengthName)).getD 0

/-- `read_body`; undefined where it fails. -/
def readBody (want : Nat) (body : ByteString) : List ByteString → Option ByteString
  | [] => if body.length < want then none else some body
  | bytes :: reads =>
      if body.length < want then
        if bytes = [] then none else readBody want (body ++ bytes) reads
      else some body

/-- A request that is to be served. -/
structure ReceivedRequest where
  method : ByteString
  path : ByteString
  head : ByteString
  body : ByteString
  deriving DecidableEq

/-- `handle_connection` up to the dispatch; undefined where it closes the
connection. -/
def receiveRequest (reads : List ByteString) : Option ReceivedRequest :=
  let (headBuf, reads) := readRequestHead [] reads
  (parseRequestLine headBuf).bind fun rl =>
    let head := headBuf.take rl.bodyOffset
    (readBody (contentLength head) (headBuf.drop rl.bodyOffset) reads).map fun body =>
      ⟨rl.method, rl.path, head, body⟩

/-- `parse_doc_route`. -/
def parseDocRoute (path : ByteString) : Option (ByteString × ByteString) :=
  let start := ascii ['/', 'd', 'o', 'c', '/']
  if start.isPrefixOf path then
    let rest := path.drop start.length
    match find [byte '/'] rest with
    | none => if validDocId rest then some (rest, []) else none
    | some slash =>
        if validDocId (rest.take slash) then some (rest.take slash, rest.drop (slash + 1))
        else none
  else none

/-- `std::from_chars` for `version_type`, where `ec` is not set. -/
def parseVersion (s : ByteString) : Option Int :=
  let negative := s.head? = some (byte '-')
  let digits := (if negative then s.tail else s).takeWhile isDigit
  let v : Int := if negative then -(decimalValue digits : Int) else decimalValue digits
  if digits = [] ∨ ¬ InInt64 v then none else some v

/-- `resume_from` in `handle_connection`. -/
def resumeFrom (head : ByteString) : Int :=
  (parseVersion (findHeader head (ascii
    ['l', 'a', 's', 't', '-', 'e', 'v', 'e', 'n', 't', '-', 'i', 'd']))).getD 0

/-- What a request is dispatched to. -/
inductive Route where
  | getDoc (docId : ByteString)
  | debugLog (body : ByteString)
  | postOp (docId body : ByteString)
  | postCursor (docId body : ByteString)
  | stream (docId : ByteString) (resumeFrom : Int)
  | getDocs
  | postDocs (body : ByteString)
  | editorHtml
  | editorJs
  | preflight
  | adminFail (suffix : ByteString)
  | noRoute
  deriving DecidableEq

/-- The method `GET`. -/
def methodGet : ByteString :=
  ascii ['G', 'E', 'T']

/-- The method `POST`. -/
def methodPost : ByteString :=
  ascii ['P', 'O', 'S', 'T']

/-- The dispatch of `handle_connection`. -/
def dispatch (req : ReceivedRequest) : Route :=
  let docRoute := parseDocRoute req.path
  let sub := docRoute.map (·.2)
  let docId := (docRoute.map (·.1)).getD []
  let fail := ascii ['/', 'a', 'd', 'm', 'i', 'n', '/', 'f', 'a', 'i', 'l', '/']
  if req.method = methodGet ∧ sub = some [] then .getDoc docId
  else if req.method = methodPost ∧
      req.path = ascii ['/', 'd', 'e', 'b', 'u', 'g', '/', 'l', 'o', 'g'] then .debugLog req.body
  else if req.method = methodPost ∧ sub = some (ascii ['o', 'p']) then .postOp docId req.body
  else if req.method = methodPost ∧ sub = some (ascii ['c', 'u', 'r', 's', 'o', 'r']) then
    .postCursor docId req.body
  else if req.method = methodGet ∧ sub = some (ascii ['s', 't', 'r', 'e', 'a', 'm']) then
    .stream docId (resumeFrom req.head)
  else if req.method = methodGet ∧ req.path = ascii ['/', 'd', 'o', 'c', 's'] then .getDocs
  else if req.method = methodPost ∧ req.path = ascii ['/', 'd', 'o', 'c', 's'] then
    .postDocs req.body
  else if req.method = methodGet ∧ (req.path = ascii ['/'] ∨
      req.path = ascii ['/', 'e', 'd', 'i', 't', 'o', 'r', '.', 'h', 't', 'm', 'l']) then
    .editorHtml
  else if req.method = methodGet ∧
      req.path = ascii ['/', 'e', 'd', 'i', 't', 'o', 'r', '.', 'j', 's'] then .editorJs
  else if req.method = ascii ['O', 'P', 'T', 'I', 'O', 'N', 'S'] then .preflight
  else if req.method = methodPost ∧ fail.isPrefixOf req.path then
    .adminFail (req.path.drop fail.length)
  else .noRoute

/-! ## What clients send -/

/-- A request as a client composes it.  The value of a header has the blanks in
front of it. -/
structure HttpRequest where
  method : ByteString
  path : ByteString
  version : ByteString
  headers : List (ByteString × ByteString)
  body : ByteString

namespace HttpRequest

/-- The first line. -/
def requestLine (r : HttpRequest) : ByteString :=
  r.method ++ byte ' ' :: (r.path ++ byte ' ' :: r.version)

/-- The line of a header. -/
def headerLine (header : ByteString × ByteString) : ByteString :=
  header.1 ++ byte ':' :: header.2

/-- The lines of the head. -/
def lines (r : HttpRequest) : List ByteString :=
  r.requestLine :: r.headers.map headerLine

/-- The head with the blank line behind it. -/
def head (r : HttpRequest) : ByteString :=
  r.lines.flatMap (· ++ crlf) ++ crlf

/-- The bytes that are sent. -/
def text (r : HttpRequest) : ByteString :=
  r.head ++ r.body

/-- The value of the first header with the name, empty if there is none. -/
def header (r : HttpRequest) (name : ByteString) : ByteString :=
  ((r.headers.find? fun header => trimEnd (asciiLower header.1) = asciiLower name).map
    fun header => trim header.2).getD []

/-- The request follows the grammar of HTTP and its head fits into the buffer.  The
length of its body is announced, unless the body is empty. -/
structure WellFormed (r : HttpRequest) : Prop where
  method_ne_nil : r.method ≠ []
  method : ∀ c ∈ r.method, c ≠ byte ' ' ∧ c ≠ byte ':'
  path_head : r.path.head? = some (byte '/')
  path : byte ' ' ∉ r.path
  unbroken : ∀ line ∈ r.lines, (13 : Byte) ∉ line
  names : ∀ header ∈ r.headers, byte ':' ∉ header.1
  short : r.head.length ≤ 64 * 1024
  announced : r.header contentLengthName = decimal r.body.length ∨
    (r.header contentLengthName = [] ∧ r.body = [])
  small : r.body.length < uint64Size

/-- What the server makes of the request. -/
def received (r : HttpRequest) : ReceivedRequest where
  method := r.method
  path := r.path
  head := r.head
  body := r.body

end HttpRequest

/-! ## The end of the head -/

theorem find_headEnd_lines {lines : List ByteString} (nonempty : lines ≠ [])
    (lineNonempty : ∀ line ∈ lines, line ≠ []) (unbroken : ∀ line ∈ lines, (13 : Byte) ∉ line)
    (rest : ByteString) :
    find headEnd (lines.flatMap (· ++ crlf) ++ crlf ++ rest) =
      some ((lines.flatMap (· ++ crlf) ++ crlf).length - headEnd.length) := by
  induction lines with
  | nil => contradiction
  | cons line lines ih =>
      rw [List.forall_mem_cons] at lineNonempty unbroken
      cases lines with
      | nil =>
          have found := find_append_needle unbroken.1 [10, 13, 10] rest
          simpa [crlf, headEnd] using found
      | cons second lines =>
          have later := ih (List.cons_ne_nil _ _) lineNonempty.2 unbroken.2
          obtain ⟨c, other, split⟩ := List.exists_cons_of_ne_nil (lineNonempty.2 second
            List.mem_cons_self)
          have visible : c ≠ 13 := by
            rintro rfl
            exact unbroken.2 second List.mem_cons_self (split ▸ List.mem_cons_self)
          have whole : (line :: second :: lines).flatMap (· ++ crlf) ++ crlf ++ rest =
              line ++ 13 :: 10 :: ((second :: lines).flatMap (· ++ crlf) ++ crlf ++ rest) := by
            simp [crlf]
          -- The line end is not the beginning of the end of the head.
          have skipped : ∀ tail, find headEnd (13 :: 10 :: c :: tail) =
              ((find headEnd (c :: tail)).map (· + 1)).map (· + 1) := by
            intro tail
            rw [find, if_neg (by simp [headEnd, List.isPrefixOf, visible.symm]), find,
              if_neg (by simp [headEnd, List.isPrefixOf])]
          obtain ⟨tail, starts⟩ : ∃ tail,
              (second :: lines).flatMap (· ++ crlf) ++ crlf ++ rest = c :: tail := by
            rw [split]
            exact ⟨_, rfl⟩
          rw [whole, headEnd, find_append unbroken.1, ← headEnd, starts, skipped tail,
            ← starts, later]
          simp [crlf, headEnd]
          omega

/-! ## Lines and headers -/

theorem headLines_append {line : ByteString} (unbroken : (13 : Byte) ∉ line)
    (pending rest : ByteString) :
    headLines pending (line ++ 13 :: 10 :: rest) = (pending ++ line) :: headLines [] rest := by
  induction line generalizing pending with
  | nil => simp [headLines]
  | cons c line ih =>
      obtain ⟨visible, later⟩ := not_or.mp (mt List.mem_cons.mpr unbroken)
      obtain ⟨d, other, split⟩ : ∃ d other, line ++ 13 :: 10 :: rest = d :: other :=
        List.exists_cons_of_ne_nil (by simp)
      have continued := ih later (pending ++ [c])
      rw [split] at continued
      rw [List.cons_append, split, headLines, if_neg (fun both => visible both.1.symm), continued]
      simp

theorem headLines_flatMap {lines : List ByteString} (unbroken : ∀ line ∈ lines, (13 : Byte) ∉ line)
    (rest : ByteString) :
    headLines [] (lines.flatMap (· ++ crlf) ++ rest) = lines ++ headLines [] rest := by
  induction lines with
  | nil => rfl
  | cons line lines ih =>
      rw [List.forall_mem_cons] at unbroken
      have first := headLines_append unbroken.1 [] (lines.flatMap (· ++ crlf) ++ rest)
      rw [ih unbroken.2] at first
      simpa [crlf] using first

theorem trimEnd_append (s : ByteString) {t : ByteString} (visible : ∃ c ∈ t, c ≠ byte ' ') :
    trimEnd (s ++ t) = s ++ trimEnd t := by
  obtain ⟨c, member, notBlank⟩ := visible
  have kept : (t.reverse.dropWhile (· = byte ' ')).isEmpty = false := by
    rw [List.isEmpty_eq_false_iff, Ne, List.dropWhile_eq_nil_iff]
    exact fun blank => notBlank (of_decide_eq_true (blank c (List.mem_reverse.mpr member)))
  simp only [trimEnd, List.rdropWhile, List.reverse_append, List.dropWhile_append, kept]
  simp

theorem headerOf_headerLine {header : ByteString × ByteString} (named : byte ':' ∉ header.1)
    (name : ByteString) :
    headerOf name (HttpRequest.headerLine header) =
      if trimEnd (asciiLower header.1) = asciiLower name then some (trim header.2) else none := by
  have colon : find [byte ':'] (HttpRequest.headerLine header) = some header.1.length :=
    find_append_needle named [] header.2
  have value : (header.1 ++ byte ':' :: header.2).drop (header.1.length + 1) = header.2 := by
    rw [← List.drop_drop, List.drop_left]
    rfl
  rw [headerOf, colon, HttpRequest.headerLine, Option.bind_some, List.take_left, value]

theorem findSome?_headerOf_map {headers : List (ByteString × ByteString)}
    (named : ∀ header ∈ headers, byte ':' ∉ header.1) (name : ByteString) :
    (headers.map HttpRequest.headerLine).findSome? (headerOf name) =
      (headers.find? fun header => trimEnd (asciiLower header.1) = asciiLower name).map
        fun header => trim header.2 := by
  induction headers with
  | nil => rfl
  | cons header headers ih =>
      rw [List.forall_mem_cons] at named
      rw [List.map_cons, List.findSome?_cons, headerOf_headerLine named.1, List.find?_cons,
        ih named.2]
      by_cases same : trimEnd (asciiLower header.1) = asciiLower name
      · simp [same]
      · simp [same]

/-! ## Numbers -/

theorem decimal_head (n : Nat) : ∃ c rest, decimal n = c :: rest ∧ isDigit c = true := by
  obtain ⟨c, rest, split⟩ := List.exists_cons_of_ne_nil (decimal_ne_nil n)
  exact ⟨c, rest, split, isDigit_of_mem_decimal (split ▸ List.mem_cons_self)⟩

theorem digit_cases : ∀ c : Byte, isDigit c = true →
    isSpace c = false ∧ c ≠ byte ' ' ∧ c ≠ byte '-' ∧ c ≠ byte '+' := by
  decide +kernel

theorem takeWhile_isDigit_decimal (n : Nat) : (decimal n).takeWhile isDigit = decimal n := by
  rw [List.takeWhile_eq_self_iff]
  exact fun _ => isDigit_of_mem_decimal

theorem stoul_decimal {n : Nat} (small : n < uint64Size) : stoul (decimal n) = some n := by
  obtain ⟨c, rest, split, digit⟩ := decimal_head n
  obtain ⟨noSpace, -, noMinus, noPlus⟩ := digit_cases c digit
  have front : (decimal n).dropWhile isSpace = decimal n := by
    rw [split, List.dropWhile_cons_of_neg (by simp [noSpace])]
  have unsigned : ∀ sign, c ≠ sign → (decimal n).head? ≠ some sign := by
    intro sign different same
    rw [split] at same
    exact different (Option.some.inj same)
  simp only [stoul, front, unsigned _ noMinus, unsigned _ noPlus, or_self, if_false,
    takeWhile_isDigit_decimal, decimalValue_decimal, decimal_ne_nil,
    Nat.not_le.mpr small]

theorem parseVersion_decimal {n : Nat} (small : n < 2 ^ 63) :
    parseVersion (decimal n) = some (n : Int) := by
  obtain ⟨c, rest, split, digit⟩ := decimal_head n
  obtain ⟨-, -, noMinus, -⟩ := digit_cases c digit
  have unsigned : (decimal n).head? ≠ some (byte '-') := by
    rw [split]
    exact fun same => noMinus (Option.some.inj same)
  have inRange : InInt64 (n : Int) := by
    unfold InInt64
    omega
  simp [parseVersion, unsigned, takeWhile_isDigit_decimal, decimalValue_decimal, decimal_ne_nil,
    inRange]

/-! ## Reads -/

/-- The bytes that the first loop has taken off the reads, and why it has
stopped. -/
theorem readRequestHead_spec {reads : List ByteString} (nonempty : ∀ bytes ∈ reads, bytes ≠ [])
    (buf : ByteString) :
    ∃ taken rest, reads = taken ++ rest ∧
      readRequestHead buf reads = (buf ++ taken.flatten, rest) ∧
      ((find headEnd (buf ++ taken.flatten)).isSome ∨
        64 * 1024 < (buf ++ taken.flatten).length ∨ rest = []) := by
  induction reads generalizing buf with
  | nil => exact ⟨[], [], rfl, by simp [readRequestHead], Or.inr (Or.inr rfl)⟩
  | cons bytes reads ih =>
      rw [List.forall_mem_cons] at nonempty
      rw [readRequestHead]
      split
      · rename_i stopped
        refine ⟨[], bytes :: reads, rfl, by simp, ?_⟩
        rw [List.flatten_nil, List.append_nil]
        rcases stopped with found | large | none_read
        · exact Or.inl found
        · exact Or.inr (Or.inl large)
        · exact absurd none_read nonempty.1
      · obtain ⟨taken, rest, split, result, stopped⟩ := ih nonempty.2 (buf ++ bytes)
        refine ⟨bytes :: taken, rest, by rw [split, List.cons_append], ?_, ?_⟩
        · rw [result, List.flatten_cons, List.append_assoc]
        · rwa [List.flatten_cons, ← List.append_assoc]

/-- A body that is not longer than announced is read when it is all there. -/
theorem readBody_eq {reads : List ByteString} (nonempty : ∀ bytes ∈ reads, bytes ≠ [])
    {want : Nat} {body : ByteString} (fits : (body ++ reads.flatten).length ≤ want) :
    readBody want body reads =
      if (body ++ reads.flatten).length = want then some (body ++ reads.flatten) else none := by
  induction reads generalizing body with
  | nil =>
      rw [List.flatten_nil, List.append_nil] at fits ⊢
      rw [readBody]
      by_cases all : body.length = want
      · rw [if_neg (by omega), if_pos all]
      · rw [if_pos (by omega), if_neg all]
  | cons bytes reads ih =>
      rw [List.forall_mem_cons] at nonempty
      have positive := List.length_pos_of_ne_nil nonempty.1
      rw [List.flatten_cons, ← List.append_assoc] at fits ⊢
      have unread : body.length < want := by
        rw [List.length_append, List.length_append] at fits
        omega
      rw [readBody, if_pos unread, if_neg nonempty.1, ih nonempty.2 fits]

/-! ## Receiving a request -/

namespace HttpRequest

variable {r : HttpRequest}

/-- The request line has a name in front of its first colon that no header has. -/
theorem WellFormed.headerOf_requestLine (formed : r.WellFormed) {name : ByteString}
    (unbroken : byte ' ' ∉ name) : headerOf name r.requestLine = none := by
  obtain ⟨tail, split⟩ : ∃ tail, r.path = byte '/' :: tail := by
    have first := formed.path_head
    cases whole : r.path with
    | nil =>
        rw [whole] at first
        contradiction
    | cons c tail =>
        rw [whole] at first
        exact ⟨tail, by rw [Option.some.inj first]⟩
  have front : byte ':' ∉ r.method ++ [byte ' ', byte '/'] := by
    intro member
    rcases List.mem_append.mp member with inMethod | behind
    · exact (formed.method _ inMethod).2 rfl
    · exact absurd behind (by decide)
  have whole : r.requestLine = r.method ++ [byte ' ', byte '/'] ++
      (tail ++ byte ' ' :: r.version) := by
    rw [requestLine, split]
    simp
  rw [headerOf, whole, find_append front, Option.bind_eq_none_iff]
  intro colon found
  obtain ⟨later, -, rfl⟩ := Option.map_eq_some_iff.mp found
  refine if_neg fun same => ?_
  have lowered : ∃ rest, asciiLower ((r.method ++ [byte ' ', byte '/'] ++
      (tail ++ byte ' ' :: r.version)).take (later + (r.method ++ [byte ' ', byte '/']).length)) =
        asciiLower r.method ++ byte ' ' :: byte '/' :: rest := by
    refine ⟨asciiLower ((tail ++ byte ' ' :: r.version).take later), ?_⟩
    rw [Nat.add_comm, List.take_length_add_append, asciiLower, List.map_append, List.map_append]
    simp [asciiLower, lowerByte, byte]
  obtain ⟨rest, lowered⟩ := lowered
  have blank : byte ' ' ∈ asciiLower name := by
    rw [← same, lowered, trimEnd_append _ ⟨byte '/', by simp, by decide⟩]
    refine List.mem_append_right _ ?_
    have kept := trimEnd_append [byte ' '] (t := byte '/' :: rest) ⟨byte '/', by simp, by decide⟩
    rw [List.singleton_append] at kept
    rw [kept]
    exact List.mem_cons_self
  obtain ⟨c, member, isBlank⟩ := List.mem_map.mp blank
  have only : ∀ c : Byte, lowerByte c = byte ' ' → c = byte ' ' := by decide +kernel
  exact unbroken (only c isBlank ▸ member)

/-- The headers that the server finds in a head are those of the request. -/
theorem WellFormed.findHeader_head (formed : r.WellFormed) {name : ByteString}
    (unbroken : byte ' ' ∉ name) : findHeader r.head name = r.header name := by
  have lines : headLines [] r.head = r.lines ++ [[], []] := headLines_flatMap formed.unbroken crlf
  have blank : headerOf name [] = none := rfl
  rw [findHeader, lines, List.findSome?_append, HttpRequest.lines, List.findSome?_cons,
    formed.headerOf_requestLine unbroken, findSome?_headerOf_map formed.names]
  simp [header, blank]

theorem WellFormed.contentLength_head (formed : r.WellFormed) :
    contentLength r.head = r.body.length := by
  rw [contentLength, formed.findHeader_head (by decide)]
  rcases formed.announced with length | ⟨absent, empty⟩
  · rw [length, stoul_decimal formed.small]
    rfl
  · rw [absent, empty]
    rfl

theorem WellFormed.find_headEnd (formed : r.WellFormed) (rest : ByteString) :
    find headEnd (r.head ++ rest) = some (r.head.length - headEnd.length) := by
  refine find_headEnd_lines (List.cons_ne_nil _ _) ?_ formed.unbroken rest
  refine List.forall_mem_cons.mpr ⟨by simp [requestLine], ?_⟩
  intro line member
  obtain ⟨header, -, rfl⟩ := List.mem_map.mp member
  simp [headerLine]

theorem headEnd_length_le (r : HttpRequest) : headEnd.length ≤ r.head.length := by
  simp only [head, lines, List.flatMap_cons, List.length_append, headEnd, crlf, List.length_cons,
    List.length_nil]
  omega

/-- The request line is read off the head. -/
theorem WellFormed.parseRequestLine_head (formed : r.WellFormed) (rest : ByteString) :
    parseRequestLine (r.head ++ rest) = some ⟨r.method, r.path, r.head.length⟩ := by
  have line : find crlf (r.head ++ rest) = some r.requestLine.length := by
    have found := find_append_needle (formed.unbroken r.requestLine List.mem_cons_self) [10]
      ((r.headers.map headerLine).flatMap (· ++ crlf) ++ crlf ++ rest)
    simpa [head, HttpRequest.lines, crlf] using found
  have cut : (r.head ++ rest).take r.requestLine.length = r.requestLine := by
    simp [head, HttpRequest.lines]
  have methodEnd : find [byte ' '] r.requestLine = some r.method.length :=
    find_append_needle (fun member => (formed.method _ member).1 rfl) [] _
  have behind : r.requestLine.drop (r.method.length + 1) = r.path ++ byte ' ' :: r.version := by
    rw [requestLine, ← List.drop_drop, List.drop_left]
    rfl
  have pathEnd : find [byte ' '] (r.path ++ byte ' ' :: r.version) = some r.path.length :=
    find_append_needle formed.path [] r.version
  have long := r.headEnd_length_le
  have offset : r.head.length - headEnd.length + 4 = r.head.length := Nat.sub_add_cancel long
  have named : r.method.length ≠ 0 := fun none_there =>
    formed.method_ne_nil (List.length_eq_zero_iff.mp none_there)
  rw [parseRequestLine, formed.find_headEnd, line, Option.bind_some, Option.bind_some]
  simp only [cut, methodEnd, behind, pathEnd, Option.bind_some, if_neg named, offset]
  rw [requestLine, List.take_left, List.take_left]

end HttpRequest

theorem receiveRequest_eq {reads rest : List ByteString} {headBuf : ByteString}
    (result : readRequestHead [] reads = (headBuf, rest)) :
    receiveRequest reads = (parseRequestLine headBuf).bind fun rl =>
      (readBody (contentLength (headBuf.take rl.bodyOffset)) (headBuf.drop rl.bodyOffset) rest).map
        fun body => ⟨rl.method, rl.path, headBuf.take rl.bodyOffset, body⟩ := by
  rw [receiveRequest, result]

/-- The head has been read, and the beginning `start` of the body behind it. -/
theorem HttpRequest.WellFormed.receive_head {r : HttpRequest} (formed : r.WellFormed)
    {reads rest : List ByteString} {start : ByteString}
    (result : readRequestHead [] reads = (r.head ++ start, rest))
    (nonempty : ∀ bytes ∈ rest, bytes ≠ []) (sent : start ++ rest.flatten <+: r.body) :
    receiveRequest reads = if start ++ rest.flatten = r.body then some r.received else none := by
  rw [receiveRequest_eq result, formed.parseRequestLine_head, Option.bind_some]
  simp only [List.take_left, List.drop_left, formed.contentLength_head]
  rw [readBody_eq nonempty sent.length_le]
  by_cases all : start ++ rest.flatten = r.body
  · rw [if_pos all, if_pos (congrArg List.length all), all]
    rfl
  · rw [if_neg all, if_neg (mt sent.eq_of_length all)]
    rfl

/-- Over every way in which the bytes of a request are spread over the reads, and
cut short at any of them, the server serves the request when they are all there,
with the method, path, headers and body that were sent, and closes the
connection otherwise. -/
theorem receiveRequest_text {r : HttpRequest} (formed : r.WellFormed) {reads : List ByteString}
    (nonempty : ∀ bytes ∈ reads, bytes ≠ []) (sent : reads.flatten <+: r.text) :
    receiveRequest reads = (if reads.flatten = r.text then some r.received else none) ∧
      ∀ name, byte ' ' ∉ name → findHeader r.received.head name = r.header name := by
  refine ⟨?_, fun name => formed.findHeader_head⟩
  obtain ⟨taken, rest, split, result, stopped⟩ := readRequestHead_spec nonempty []
  rw [List.nil_append] at result stopped
  have all : reads.flatten = taken.flatten ++ rest.flatten := by
    rw [split, List.flatten_append]
  obtain ⟨more, whole⟩ := sent
  rw [all, List.append_assoc] at whole
  have search : find headEnd taken.flatten = _ := find_prefix (List.cons_ne_nil _ _)
    ((congrArg (find headEnd) whole).trans (formed.find_headEnd r.body))
  have long := r.headEnd_length_le
  by_cases complete : r.head.length ≤ taken.flatten.length
  · obtain ⟨start, headRead⟩ : r.head <+: taken.flatten :=
      List.prefix_of_prefix_length_le (List.prefix_append _ r.body) ⟨_, whole⟩ complete
    rw [← headRead] at result whole all
    have bodySent : start ++ rest.flatten <+: r.body := by
      refine ⟨more, ?_⟩
      rw [HttpRequest.text, List.append_assoc, List.append_cancel_left_eq] at whole
      rw [List.append_assoc, whole]
    have served := formed.receive_head result (fun bytes member =>
      nonempty bytes (split ▸ List.mem_append_right taken member)) bodySent
    rw [served]
    simp only [all, HttpRequest.text, List.append_assoc, List.append_cancel_left_eq]
  · -- The connection has ended within the head.
    have unfound : find headEnd taken.flatten = none := by
      rw [search, if_neg]
      simp only [headEnd, List.length_cons, List.length_nil] at long ⊢
      omega
    have ended : rest = [] := by
      have short := formed.short
      rcases stopped with found | large | nothing
      · rw [unfound] at found
        contradiction
      · omega
      · exact nothing
    have cut : reads.flatten ≠ r.text := by
      intro same
      have lengths := congrArg List.length same
      rw [all, ended, HttpRequest.text] at lengths
      simp only [List.flatten_nil, List.append_nil, List.length_append] at lengths
      omega
    rw [if_neg cut, receiveRequest_eq result, parseRequestLine, unfound]
    rfl

/-- A POST with two bytes of body. -/
def shortPost : HttpRequest where
  method := methodPost
  path := ascii ['/', 'd', 'o', 'c', '/', 'a', '/', 'o', 'p']
  version := ascii ['H', 'T', 'T', 'P', '/', '1', '.', '1']
  headers := [(ascii ['C', 'o', 'n', 't', 'e', 'n', 't', '-', 'L', 'e', 'n', 'g', 't', 'h'],
    ascii [' ', '2'])]
  body := ascii ['o', 'k']

theorem wellFormed_shortPost : shortPost.WellFormed := by
  constructor <;> decide +kernel

theorem receiveRequest_text_shortPost :
    let reads := [shortPost.text.take 7, (shortPost.text.drop 7).take 40, ascii ['k']]
    receiveRequest reads = some shortPost.received ∧
      dispatch shortPost.received = .postOp (ascii ['a']) (ascii ['o', 'k']) := by
  have served := @receiveRequest_text shortPost wellFormed_shortPost
    [shortPost.text.take 7, (shortPost.text.drop 7).take 40, ascii ['k']]
    (by decide +kernel) (by decide +kernel)
  exact ⟨served.1.trans (if_pos (by decide +kernel)), by decide +kernel⟩

end DoomDraft.Server
