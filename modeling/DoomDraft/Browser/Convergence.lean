import DoomDraft.Browser.Session
import DoomDraft.Foundation.KeySorted

/-!
# Convergence of a browser session

The text that the editor takes for the server's is the replay of the log up to
the version that the editor takes for the server's.  Events of the stream keep
it so; the response to a POST does when it does not run ahead of the stream.
-/

namespace DoomDraft.Browser

open Document

universe u

variable {α : Type u}

/-- The commits of the log later than `base` up to `version`. -/
def between (log : List (OpEvent α)) (base version : Nat) : List (OpEvent α) :=
  log.filter fun event => base < event.version ∧ event.version ≤ version

/-- The text of the log at `version`, from the snapshot `text` at `base`. -/
def replay (text : List α) (base : Nat) (log : List (OpEvent α)) (version : Nat) : List α :=
  applyAll text ((between log base version).map OpEvent.op)

theorem mem_between {log : List (OpEvent α)} {base version : Nat} {event : OpEvent α} :
    event ∈ between log base version ↔
      event ∈ log ∧ base < event.version ∧ event.version ≤ version := by
  simp [between]

theorem between_self (log : List (OpEvent α)) (base : Nat) : between log base base = [] := by
  apply List.eq_nil_iff_forall_not_mem.mpr
  intro event member
  obtain ⟨-, later, earlier⟩ := mem_between.mp member
  omega

theorem between_concat {log : List (OpEvent α)} {base version : Nat} {event : OpEvent α}
    (outside : ¬ (base < event.version ∧ event.version ≤ version)) :
    between (log ++ [event]) base version = between log base version := by
  simp [between, outside]

/-- The next commit is the only one that the longer stretch adds. -/
theorem between_next {log : List (OpEvent α)} (sorted : KeySorted OpEvent.version log)
    {base version : Nat} (start : base ≤ version) {event : OpEvent α} (member : event ∈ log)
    (later : version < event.version)
    (next : ∀ other ∈ log, version < other.version → other.version ≤ event.version →
      other.version = event.version) :
    between log base event.version = between log base version ++ [event] := by
  refine KeySorted.eq_of_mem_iff (sorted.filter _) ?_ ?_
  · refine List.pairwise_append.mpr ⟨sorted.filter _, List.pairwise_singleton _ _, ?_⟩
    intro first firstMem second secondMem
    rw [List.mem_singleton.mp secondMem]
    exact (mem_between.mp firstMem).2.2.trans_lt later
  · intro other
    rw [List.mem_append, List.mem_singleton, mem_between, mem_between]
    constructor
    · rintro ⟨otherMem, above, below⟩
      rcases Nat.lt_or_ge version other.version with beyond | within
      · exact Or.inr (sorted.injOn otherMem member (next other otherMem beyond below))
      · exact Or.inl ⟨otherMem, above, within⟩
    · rintro (⟨otherMem, above, within⟩ | rfl)
      · exact ⟨otherMem, above, within.trans later.le⟩
      · exact ⟨member, start.trans_lt later, le_rfl⟩

theorem replay_next {log : List (OpEvent α)} (sorted : KeySorted OpEvent.version log)
    (text : List α) {base version : Nat} (start : base ≤ version) {event : OpEvent α}
    (member : event ∈ log) (later : version < event.version)
    (next : ∀ other ∈ log, version < other.version → other.version ≤ event.version →
      other.version = event.version) :
    replay text base log event.version = applyOp (replay text base log version) event.op := by
  rw [replay, between_next sorted start member later next, List.map_append, applyAll_append]
  rfl

/-! ## What the handlers do to the server's text -/

namespace Editor

/-- The text and the version taken for the server's. -/
def server (s : Editor α) : List α × Nat :=
  (s.serverText, s.serverVersion)

/-- The response commits the first pending operation. -/
def AcceptsAck (s : Editor α) (version seq : Nat) : Prop :=
  s.inflightSeq = some seq ∧ s.FrontIs seq ∧ s.serverVersion < version

instance (s : Editor α) (version seq : Nat) : Decidable (s.AcceptsAck version seq) :=
  inferInstanceAs (Decidable (_ ∧ _ ∧ _))

@[simp]
theorem server_sendPendingFront (s : Editor α) : s.sendPendingFront.1.server = s.server := by
  rw [sendPendingFront]
  split <;> rfl

theorem server_ackPostIfStillInflight (s : Editor α) (version seq : Nat) :
    (s.ackPostIfStillInflight version seq).1.server = s.server ∨
      s.AcceptsAck version seq ∧ ∃ front, s.pending.head? = some front ∧
        (s.ackPostIfStillInflight version seq).1.server =
          (applyOp s.serverText front.op, version) := by
  rw [ackPostIfStillInflight]
  split
  · exact Or.inl (server_sendPendingFront s)
  · rename_i same
    rw [not_not] at same
    cases pendingEq : s.pending with
    | nil => exact Or.inl (server_sendPendingFront _)
    | cons front rest =>
        simp only
        split_ifs with isFront stale
        · exact Or.inl (server_sendPendingFront _)
        · exact Or.inl (server_sendPendingFront _)
        · refine Or.inr ⟨⟨same, ?_, Nat.lt_of_not_le stale⟩, front, rfl, ?_⟩
          · simpa [FrontIs, pendingEq] using isFront
          · exact server_sendPendingFront _

theorem server_receiveResponse (s : Editor α) (seq : Nat) (version : Nat) :
    (s.receiveResponse seq (some version)).1.server = s.server ∨
      s.AcceptsAck version seq ∧ ∃ front, s.pending.head? = some front ∧
        (s.receiveResponse seq (some version)).1.server =
          (applyOp s.serverText front.op, version) := by
  simp only [receiveResponse]
  split
  · exact server_ackPostIfStillInflight s version seq
  · exact Or.inl rfl

theorem server_postFailed (s : Editor α) (seq : Nat) : (s.postFailed seq).1.server = s.server := by
  rw [postFailed]
  split
  · exact server_sendPendingFront s
  · rfl

theorem server_foldl_enqueue (s : Editor α) (ops : List (DocOp α)) :
    (ops.foldl enqueue s).server = s.server := by
  induction ops generalizing s with
  | nil => rfl
  | cons op rest ih => exact ih (s.enqueue op)

variable [DecidableEq α]

theorem server_onInput (s : Editor α) (text : List α) : (s.onInput text).1.server = s.server := by
  rw [onInput]
  split_ifs
  · rfl
  · rfl
  · rw [server_sendPendingFront, server_foldl_enqueue]

theorem server_handleSSEOp (s : Editor α) (event : OpEvent α) :
    event.version ≤ s.serverVersion ∧ (s.handleSSEOp event).1.server = s.server ∨
      s.serverVersion < event.version ∧
        (s.handleSSEOp event).1.server = (applyOp s.serverText event.op, event.version) := by
  rw [handleSSEOp]
  split_ifs with stale owns
  · exact Or.inl ⟨stale, rfl⟩
  · exact Or.inr ⟨Nat.lt_of_not_le stale, server_sendPendingFront _⟩
  · exact Or.inr ⟨Nat.lt_of_not_le stale, rfl⟩

end Editor

/-! ## The invariant -/

namespace Session

/-- The editor follows the log from the snapshot `text` at `base`. -/
structure Follows (text : List α) (base : Nat) (w : Session α) : Prop where
  sorted : KeySorted OpEvent.version w.log
  started : base ≤ w.editor.serverVersion
  /-- The editor's version is the snapshot's or that of a commit. -/
  known : w.editor.serverVersion = base ∨
    ∃ event ∈ w.log, event.version = w.editor.serverVersion
  /-- Every response is the answer to a commit. -/
  answers : ∀ response ∈ w.responses, ∃ event ∈ w.log, event.version = response.version
  streamed : w.delivered ≤ w.log.length
  /-- The stream is not ahead of the editor. -/
  passed : ∀ event ∈ w.log.take w.delivered, event.version ≤ w.editor.serverVersion
  agrees : w.editor.serverText = replay text base w.log w.editor.serverVersion

/-- The response to a POST commits the first pending operation although the log
holds another commit that the editor has not seen before it, or the first
pending operation is no longer the one that was POSTed. -/
def misacknowledges [DecidableEq α] (w : Session α) : Action α → Bool
  | .deliverResponse position =>
      match w.responses[position]? with
      | none => false
      | some response =>
          w.editor.AcceptsAck response.version response.seq ∧
            ∃ event ∈ w.log, w.editor.serverVersion < event.version ∧
              event.version ≤ response.version ∧
              ¬ (event.version = response.version ∧
                w.editor.pending.head?.map PendingOp.op = some event.op)
  | _ => false

theorem follows_load (s : Editor α) (text : List α) (version : Nat) {log : List (OpEvent α)}
    (sorted : KeySorted OpEvent.version log) : Follows text version (load s text version log) where
  sorted := sorted
  started := le_rfl
  known := Or.inl rfl
  answers := by simp [load]
  streamed := Nat.zero_le _
  passed := by simp [load]
  agrees := by
    rw [replay]
    change text = applyAll text ((between log version version).map OpEvent.op)
    rw [between_self]
    rfl

/-- A handler that leaves the server's text alone. -/
theorem Follows.keep {text : List α} {base : Nat} {w next : Session α}
    (follows : Follows text base w) (log : next.log = w.log)
    (delivered : next.delivered ≤ w.log.length)
    (passed : ∀ event ∈ w.log.take next.delivered, event.version ≤ w.editor.serverVersion)
    (responses : ∀ response ∈ next.responses, response ∈ w.responses)
    (server : next.editor.server = w.editor.server) : Follows text base next := by
  obtain ⟨textEq, versionEq⟩ := Prod.mk.inj server
  constructor
  · rw [log]
    exact follows.sorted
  · rw [versionEq]
    exact follows.started
  · rw [log, versionEq]
    exact follows.known
  · rw [log]
    exact fun response member => follows.answers response (responses response member)
  · rw [log]
    exact delivered
  · rw [log, versionEq]
    exact passed
  · rw [log, textEq, versionEq]
    exact follows.agrees

/-- A commit is later than everything the editor has seen. -/
theorem Follows.commit {text : List α} {base : Nat} {w next : Session α}
    (follows : Follows text base w) {event : OpEvent α} (newest : w.IsNewest event.version)
    (log : next.log = w.log ++ [event]) (editor : next.editor = w.editor)
    (delivered : next.delivered = w.delivered)
    (responses : ∀ response ∈ next.responses,
      response ∈ w.responses ∨ response.version = event.version) :
    Follows text base next := by
  constructor
  · rw [log]
    refine List.pairwise_append.mpr ⟨follows.sorted, List.pairwise_singleton _ _, ?_⟩
    intro first firstMem second secondMem
    rw [List.mem_singleton.mp secondMem]
    exact newest first firstMem
  · rw [editor]
    exact follows.started
  · rw [editor, log]
    refine follows.known.imp_right ?_
    rintro ⟨seen, member, version⟩
    exact ⟨seen, List.mem_append_left _ member, version⟩
  · intro response member
    rw [log]
    rcases responses response member with old | new
    · obtain ⟨answered, answeredMem, version⟩ := follows.answers response old
      exact ⟨answered, List.mem_append_left _ answeredMem, version⟩
    · exact ⟨event, List.mem_append_right _ (List.mem_singleton_self event), new.symm⟩
  · rw [log, delivered, List.length_append]
    exact follows.streamed.trans (Nat.le_add_right _ _)
  · rw [log, editor, delivered, List.take_append_of_le_length follows.streamed]
    exact follows.passed
  · have outside : ¬ (base < event.version ∧ event.version ≤ w.editor.serverVersion) := by
      rintro ⟨above, below⟩
      rcases follows.known with start | ⟨seen, member, version⟩
      · omega
      · have older := newest seen member
        omega
    rw [log, editor, replay, between_concat outside]
    exact follows.agrees

/-- The editor takes over the next commit that it has not seen. -/
theorem Follows.advance {text : List α} {base : Nat} {w next : Session α}
    (follows : Follows text base w) {event : OpEvent α} (member : event ∈ w.log)
    (later : w.editor.serverVersion < event.version)
    (isNext : ∀ other ∈ w.log, w.editor.serverVersion < other.version →
      other.version ≤ event.version → other.version = event.version)
    (log : next.log = w.log) (delivered : next.delivered ≤ w.log.length)
    (passed : ∀ other ∈ w.log.take next.delivered, other.version ≤ event.version)
    (responses : ∀ response ∈ next.responses, response ∈ w.responses)
    (server : next.editor.server = (applyOp w.editor.serverText event.op, event.version)) :
    Follows text base next := by
  obtain ⟨textEq, versionEq⟩ := Prod.mk.inj server
  constructor
  · rw [log]
    exact follows.sorted
  · rw [versionEq]
    exact follows.started.trans later.le
  · rw [log, versionEq]
    exact Or.inr ⟨event, member, rfl⟩
  · rw [log]
    exact fun response member => follows.answers response (responses response member)
  · rw [log]
    exact delivered
  · rw [log, versionEq]
    exact passed
  · rw [log, textEq, versionEq, follows.agrees]
    exact (replay_next follows.sorted text follows.started member later isNext).symm

/-- The stream delivers the first commit that the editor has not seen, or one
that it has. -/
theorem Follows.next_of_delivered {text : List α} {base : Nat} {w : Session α}
    (follows : Follows text base w) {event : OpEvent α} (found : w.log[w.delivered]? = some event)
    {other : OpEvent α} (member : other ∈ w.log) (later : w.editor.serverVersion < other.version)
    (upTo : other.version ≤ event.version) : other.version = event.version := by
  obtain ⟨within, rfl⟩ := List.getElem?_eq_some_iff.mp found
  have split : w.log =
      w.log.take w.delivered ++ w.log[w.delivered] :: w.log.drop (w.delivered + 1) := by
    rw [← List.drop_eq_getElem_cons within, List.take_append_drop]
  rw [split] at member
  rcases List.mem_append.mp member with before | after
  · have seen := follows.passed other before
    omega
  · rcases List.mem_cons.mp after with rfl | behind
    · rfl
    · have sorted := follows.sorted
      rw [split] at sorted
      have less := (List.pairwise_cons.mp (List.pairwise_append.mp sorted).2.1).1 other behind
      omega

variable [DecidableEq α]

theorem Follows.deliverEvent {text : List α} {base : Nat} {w : Session α}
    (follows : Follows text base w) {event : OpEvent α} (found : w.log[w.delivered]? = some event) :
    Follows text base
      { w.handle (w.editor.handleSSEOp event) with delivered := w.delivered + 1 } := by
  have member : event ∈ w.log := List.mem_of_getElem? found
  have within : w.delivered + 1 ≤ w.log.length := (List.getElem?_eq_some_iff.mp found).1
  have taken : w.log.take (w.delivered + 1) = w.log.take w.delivered ++ [event] := by
    rw [List.take_add_one, found]
    rfl
  rcases w.editor.server_handleSSEOp event with ⟨stale, server⟩ | ⟨later, server⟩
  · refine follows.keep rfl within ?_ (fun _ => id) server
    intro other otherMem
    rw [taken, List.mem_append, List.mem_singleton] at otherMem
    rcases otherMem with before | rfl
    · exact follows.passed other before
    · exact stale
  · refine follows.advance member later (fun other => follows.next_of_delivered found) rfl within ?_
      (fun _ => id) server
    intro other otherMem
    rw [taken, List.mem_append, List.mem_singleton] at otherMem
    rcases otherMem with before | rfl
    · exact (follows.passed other before).trans later.le
    · exact le_rfl

theorem Follows.deliverResponse {text : List α} {base : Nat} {w : Session α}
    (follows : Follows text base w) {position : Nat} {response : PostResponse}
    (found : w.responses[position]? = some response)
    (care : w.misacknowledges (.deliverResponse position) = false) :
    Follows text base ({ w with responses := w.responses.eraseIdx position }.handle
      (w.editor.receiveResponse response.seq (some response.version))) := by
  have rest : ∀ other ∈ w.responses.eraseIdx position, other ∈ w.responses :=
    fun _ => List.mem_of_mem_eraseIdx
  rcases w.editor.server_receiveResponse response.seq response.version with
    server | ⟨accepts, front, isFront, server⟩
  · exact follows.keep rfl follows.streamed follows.passed rest server
  · obtain ⟨event, member, version⟩ := follows.answers response (List.mem_of_getElem? found)
    -- No commit but the acknowledged one lies ahead, and it is the first pending operation.
    have alone : ∀ other ∈ w.log, w.editor.serverVersion < other.version →
        other.version ≤ response.version →
        other.version = response.version ∧ front.op = other.op := by
      simpa [misacknowledges, found, accepts, isFront] using care
    have later : w.editor.serverVersion < event.version := by
      rw [version]
      exact accepts.2.2
    have same : front.op = event.op := (alone event member later version.le).2
    rw [same] at server
    refine follows.advance member later ?_ rfl follows.streamed ?_ rest ?_
    · intro other otherMem ahead upTo
      rw [version] at upTo ⊢
      exact (alone other otherMem ahead upTo).1
    · intro other otherMem
      exact (follows.passed other otherMem).trans later.le
    · rw [version]
      exact server

/-- One action of the session. -/
theorem Follows.step {text : List α} {base : Nat} {w next : Session α}
    (follows : Follows text base w) {action : Action α} (care : w.misacknowledges action = false)
    (stepped : w.step action = some next) : Follows text base next := by
  cases action with
  | input cur =>
      obtain rfl := Option.some.inj stepped
      exact follows.keep rfl follows.streamed follows.passed (fun _ => id)
        (w.editor.server_onInput cur)
  | commitPost position version =>
      simp only [Session.step] at stepped
      split at stepped
      · contradiction
      · split at stepped
        · rename_i post found newest
          obtain rfl := Option.some.inj stepped
          have later : w.IsNewest (w.eventOf post.entry version).version := newest
          refine follows.commit later rfl rfl rfl ?_
          intro response member
          rcases List.mem_append.mp member with old | new
          · exact Or.inl old
          · split at new
            · rw [List.mem_singleton.mp new]
              exact Or.inr rfl
            · contradiction
        · contradiction
  | commitForeign event =>
      simp only [Session.step] at stepped
      split at stepped
      · rename_i newest
        obtain rfl := Option.some.inj stepped
        exact follows.commit newest rfl rfl rfl fun _ => Or.inl
      · contradiction
  | deliverEvent =>
      simp only [Session.step] at stepped
      split at stepped
      · contradiction
      · rename_i event found
        obtain rfl := Option.some.inj stepped
        exact follows.deliverEvent found
  | deliverResponse position =>
      simp only [Session.step] at stepped
      split at stepped
      · contradiction
      · rename_i response found
        obtain rfl := Option.some.inj stepped
        exact follows.deliverResponse found care
  | garbleResponse position =>
      simp only [Session.step] at stepped
      split at stepped
      · contradiction
      · obtain rfl := Option.some.inj stepped
        exact follows.keep rfl follows.streamed follows.passed (fun _ => List.mem_of_mem_eraseIdx)
          rfl
  | failPost position =>
      simp only [Session.step] at stepped
      split at stepped
      · contradiction
      · split at stepped
        · rename_i post found awaited
          obtain rfl := Option.some.inj stepped
          exact follows.keep rfl follows.streamed follows.passed (fun _ => id)
            (w.editor.server_postFailed post.entry.seq)
        · contradiction
  | failResponse position =>
      simp only [Session.step] at stepped
      split at stepped
      · contradiction
      · rename_i response found
        obtain rfl := Option.some.inj stepped
        exact follows.keep rfl follows.streamed follows.passed (fun _ => List.mem_of_mem_eraseIdx)
          (w.editor.server_postFailed response.seq)

/-- Convergence in the runs whose POST acknowledgements are in order: the
editor's server text is the replay, from the loaded snapshot, of exactly the
commits up to the editor's server version. -/
theorem browser_convergence (s : Editor α) (text : List α) (version : Nat)
    {log : List (OpEvent α)} (sorted : KeySorted OpEvent.version log) {actions : List (Action α)}
    {w : Session α} (run : (load s text version log).perform actions = some w)
    (careful : Transition.Permitted step (fun state action => state.misacknowledges action = false)
      (load s text version log) actions) :
    w.editor.serverText = replay text version w.log w.editor.serverVersion := by
  have follows : Follows text version w :=
    Transition.perform_induction (fun _ _ _ follows care stepped => follows.step care stepped)
      (follows_load s text version sorted) careful run
  exact follows.agrees

/-- An editor before it has connected. -/
def freshEditor : Editor Char where
  clientId := ['c']
  serverText := []
  pending := []
  mySeqs := ∅
  inflightSeq := none
  nextSeq := 0
  serverVersion := 0
  connected := false

/-- Another editor's insertion of `b` at the start. -/
def insertB : OpEvent Char :=
  ⟨1, ['d'], 0, .insert 0 ['b']⟩

/-- The stream delivers the other editor's commit before the response to the
own POST arrives, which is committed behind it. -/
def orderlyRun : List (Action Char) :=
  [.input ['a'], .commitForeign insertB, .commitPost 0 2, .deliverEvent, .deliverEvent,
    .deliverResponse 0, .input ['a', 'b', 'c'], .commitPost 0 3, .deliverResponse 0, .deliverEvent]

/-- The response to the own POST overtakes the stream. -/
def overtakingRun : List (Action Char) :=
  [.input ['a'], .commitForeign insertB, .commitPost 0 2, .deliverResponse 0]

theorem browser_convergence_orderlyRun : ∃ w : Session Char,
    (load freshEditor [] 0 []).perform orderlyRun = some w ∧ w.editor.serverVersion = 3 ∧
      w.editor.serverText = replay [] 0 w.log 3 := by
  have facts : ((load freshEditor [] 0 []).perform orderlyRun).any
      (fun w => w.editor.serverVersion = 3) = true := by decide +kernel
  obtain ⟨w, run, version⟩ := (Option.any_eq_true _ _).mp facts
  have versionEq := of_decide_eq_true version
  refine ⟨w, run, versionEq, ?_⟩
  rw [← versionEq]
  exact browser_convergence freshEditor [] 0 List.Pairwise.nil run (by decide +kernel)

/-- The text of a response that overtakes the stream lacks the commit it jumps
over. -/
theorem overtakingRun_diverges : ¬ ∀ (s : Editor Char) (text : List Char) (version : Nat)
    (log : List (OpEvent Char)) (actions : List (Action Char)) (w : Session Char),
    KeySorted OpEvent.version log → (load s text version log).perform actions = some w →
      w.editor.serverText = replay text version w.log w.editor.serverVersion := by
  intro converges
  have facts : ((load freshEditor [] 0 []).perform overtakingRun).any
      (fun w => w.editor.serverText ≠ replay [] 0 w.log w.editor.serverVersion) = true := by
    decide +kernel
  obtain ⟨w, run, different⟩ := (Option.any_eq_true _ _).mp facts
  exact of_decide_eq_true different
    (converges freshEditor [] 0 [] overtakingRun w List.Pairwise.nil run)

end Session

end DoomDraft.Browser
