import DoomDraft.Collab.Editor

/-!
# The order of integration

In a database where every editor commits its operations in the order of their
sequence numbers, an operation that is waiting to be integrated is newer than all
that the editor has integrated, as long as each round picks the least of the next
operations that are committed when it ends.  The rounds of the editor do not
ensure this: they ask for the next operations one after the other.
-/

namespace DoomDraft.Collab

open Document Pancy

variable {n : Nat}

namespace World

theorem key_injective {w : World n} {peer other : Fin n} {seq otherSeq : Nat}
    (same : w.key peer seq = w.key other otherSeq) : peer = other ∧ seq = otherSeq := by
  obtain ⟨-, peerEq, seqEq⟩ := opKey_injective same
  exact ⟨Fin.ext peerEq, seqEq⟩

/-! ## The committed operations -/

/-- Every editor has committed its operations in order, at increasing
versions. -/
structure Committed (w : World n) : Prop where
  versioned : w.db.WellVersioned
  present : ∀ peer seq, (w.cellAt peer seq).isSome = true ↔ seq < w.committed peer
  ascending : ∀ peer seq later cell laterCell, seq < later → w.cellAt peer seq = some cell →
    w.cellAt peer later = some laterCell → cell.version < laterCell.version

/-- The executed put stores the operation under the next version. -/
theorem cellAt_executePut {w : World n} (versioned : w.db.WellVersioned) (peer other : Fin n)
    (seq otherSeq : Nat) (op : DocOp Byte) (serial : Nat) :
    (w.executePut peer seq op serial).cellAt other otherSeq =
      if other = peer ∧ otherSeq = seq then some ⟨serialize op, w.db.nextVersion⟩
      else w.cellAt other otherSeq := by
  have dbEq : (w.executePut peer seq op serial).db = w.db.write (w.key peer seq) (serialize op) :=
    versioned.processPut_any serial _ _
  have keyEq : (w.executePut peer seq op serial).key other otherSeq = w.key other otherSeq := rfl
  rw [cellAt, dbEq, keyEq, PancyDb.find?_write]
  by_cases same : other = peer ∧ otherSeq = seq
  · rw [if_pos same, if_pos (by rw [same.1, same.2])]
  · rw [if_neg same, if_neg fun keys => same (key_injective keys)]
    rfl

theorem nextVersion_executePut {w : World n} (versioned : w.db.WellVersioned) (peer : Fin n)
    (seq : Nat) (op : DocOp Byte) (serial : Nat) :
    (w.executePut peer seq op serial).db.nextVersion = w.db.nextVersion + 1 := by
  have dbEq : (w.executePut peer seq op serial).db = w.db.write (w.key peer seq) (serialize op) :=
    versioned.processPut_any serial _ _
  rw [dbEq]
  rfl

theorem Committed.version_lt {w : World n} (committed : Committed w) {peer : Fin n} {seq : Nat}
    {cell : Vv} (found : w.cellAt peer seq = some cell) : cell.version < w.db.nextVersion :=
  (committed.versioned.bounds _ cell found).2

/-- An editor puts its next operation, or its last one again. -/
theorem Committed.executePut {w : World n} (committed : Committed w) {peer : Fin n} {seq : Nat}
    (inOrder : seq ≤ w.committed peer ∧ w.committed peer ≤ seq + 1) (op : DocOp Byte)
    (serial : Nat) : Committed (w.executePut peer seq op serial) := by
  have versioned := committed.versioned
  refine ⟨versioned.processPut _, ?_, ?_⟩
  · intro other otherSeq
    have counted : (w.executePut peer seq op serial).committed =
        Function.update w.committed peer (max (w.committed peer) (seq + 1)) := rfl
    rw [cellAt_executePut versioned, counted]
    by_cases same : other = peer
    · subst same
      rw [Function.update_self]
      have old := committed.present other otherSeq
      split
      · simp only [Option.isSome_some, true_iff]
        omega
      · rename_i different
        have seqNe : otherSeq ≠ seq := fun eq => different ⟨rfl, eq⟩
        rw [old]
        omega
    · rw [Function.update_of_ne same, if_neg fun both => same both.1]
      exact committed.present other otherSeq
  · intro other first later cell laterCell less found foundLater
    rw [cellAt_executePut versioned] at found foundLater
    split at foundLater
    · rename_i atPut
      obtain rfl := Option.some.inj foundLater
      rw [if_neg (by omega)] at found
      exact committed.version_lt found
    · split at found
      · rename_i atPut
        obtain ⟨rfl, rfl⟩ := atPut
        -- the operation that is put has no successor yet
        have beyond := (committed.present other later).mp (by rw [foundLater]; rfl)
        omega
      · exact committed.ascending other first later cell laterCell less found foundLater

/-! ## The state of the editor between two steps -/

/-- The pending operations of the editor are the ones that it has not integrated,
and only the first of them may have been put. -/
structure Queued (es : EditorState n) (cid : Fin n) (committed : Nat) : Prop where
  seqs : es.pendingSeqs = List.range' (es.peerNextSeq cid) es.pending.length
  nextSeq : es.nextSeq = es.peerNextSeq cid + es.pending.length
  lower : es.peerNextSeq cid ≤ committed
  upper : committed ≤ es.peerNextSeq cid + min 1 es.pending.length

/-- The editor has integrated operations in order, and what it has not
integrated is newer. -/
structure Settled (w : World n) : Prop where
  committed : Committed w
  queued : Queued w.es w.cid (w.committed w.cid)
  sorted : w.integrated.Pairwise (· < ·)
  old : ∀ version ∈ w.integrated, version < w.db.nextVersion
  waiting : ∀ peer, ∀ cell ∈ w.cellAt peer (w.es.peerNextSeq peer),
    ∀ version ∈ w.integrated, version < cell.version

/-- An operation that a round has picked was the next one of its editor, and it
has not been integrated since. -/
structure Candidate (w : World n) (best : Best n) : Prop where
  next : best.seq = w.es.peerNextSeq best.peer
  newer : ∀ version ∈ w.integrated, version < best.version
  old : best.version < w.db.nextVersion
  stored : ∃ cell, w.cellAt best.peer best.seq = some cell ∧ best.version ≤ cell.version
  distinct : ∀ peer, peer ≠ best.peer → ∀ cell ∈ w.cellAt peer (w.es.peerNextSeq peer),
    cell.version ≠ best.version

/-- The state of the editor, also within a round. -/
structure Ordered (w : World n) : Prop extends Settled w where
  candidate : ∀ best ∈ w.phase.best?, Candidate w best

theorem Settled.setPhase {w : World n} (settled : Settled w) (serial : Nat) (phase : Phase n) :
    Settled { w with serial := serial, phase := phase } where
  committed := ⟨settled.committed.versioned, settled.committed.present, settled.committed.ascending⟩
  queued := settled.queued
  sorted := settled.sorted
  old := settled.old
  waiting := settled.waiting

theorem Candidate.setPhase {w : World n} {best : Best n} (candidate : Candidate w best)
    (serial : Nat) (phase : Phase n) :
    Candidate { w with serial := serial, phase := phase } best :=
  ⟨candidate.next, candidate.newer, candidate.old, candidate.stored, candidate.distinct⟩

theorem ordered_start (docId : ByteString) (cid : Fin n) : Ordered (start docId cid) where
  committed := by
    have nothing : ∀ peer seq, (start docId cid).cellAt peer seq = none := fun _ _ => rfl
    refine ⟨PancyDb.wellVersioned_empty, ?_, ?_⟩
    · intro peer seq
      rw [nothing]
      simp [start]
    · intro peer seq later cell laterCell _ found
      rw [nothing] at found
      contradiction
  queued := ⟨rfl, rfl, Nat.le_refl 0, Nat.zero_le _⟩
  sorted := List.Pairwise.nil
  old := by simp [start]
  waiting := by simp [start]
  candidate best picked := by simp [start, Phase.best?] at picked

/-! ## Rounds -/

/-- A round keeps what it has picked or picks the operation of the answer. -/
theorem considerNext_cases {best : Option (Best n)} {peer : Fin n} {seq : Nat}
    {resp : GetResponse} {picked : Best n}
    (chosen : considerNext best peer seq resp = some picked) :
    best = some picked ∨ (resp.value ≠ [] ∧ deserialize resp.value = some picked.op ∧
      picked.peer = peer ∧ picked.seq = seq ∧ picked.version = resp.version) := by
  unfold considerNext at chosen
  split at chosen
  · exact Or.inl chosen
  · rename_i accepted
    have someValue : resp.value ≠ [] := fun empty => accepted (Or.inr empty)
    split at chosen
    · exact Or.inl chosen
    · rename_i committed read
      split at chosen
      · obtain rfl := Option.some.inj chosen
        exact Or.inr ⟨someValue, read, rfl, rfl, rfl⟩
      · split at chosen
        · obtain rfl := Option.some.inj chosen
          exact Or.inr ⟨someValue, read, rfl, rfl, rfl⟩
        · exact Or.inl chosen

/-- An answer with a value is the cell of the key. -/
theorem processGet_of_value_ne_nil {db : PancyDb} {req : GetRequest}
    (someValue : (db.processGet req).value ≠ []) :
    ∃ cell, db.db.find? req.key = some cell ∧ (db.processGet req).value = cell.value ∧
      (db.processGet req).version = cell.version := by
  have answer : db.processGet req = ⟨req.serial, .ok,
      ((db.db.find? req.key).getD Vv.nonexistent).value,
      ((db.db.find? req.key).getD Vv.nonexistent).version⟩ := rfl
  rw [answer] at someValue ⊢
  cases found : db.db.find? req.key with
  | none =>
      rw [found] at someValue
      exact absurd rfl someValue
  | some cell => exact ⟨cell, rfl, rfl, rfl⟩

/-- What a round has picked after an answer. -/
theorem Settled.candidate_of_get {w : World n} (settled : Settled w) {peer : Fin n}
    {picked : Best n} {best : Option (Best n)} {serial : Nat}
    (before : ∀ old, best = some old → Candidate w old)
    (chosen : considerNext best peer (w.es.peerNextSeq peer)
      (w.db.processGet ⟨serial, w.key peer (w.es.peerNextSeq peer)⟩) = some picked) :
    Candidate w picked := by
  rcases considerNext_cases chosen with kept | ⟨someValue, -, rfl, seqEq, versionEq⟩
  · exact before picked kept
  · obtain ⟨cell, found, -, sameVersion⟩ := processGet_of_value_ne_nil someValue
    have version : picked.version = cell.version := versionEq.trans sameVersion
    refine ⟨seqEq, ?_, ?_, ⟨cell, seqEq ▸ found, version.le⟩, ?_⟩
    · rw [version]
      exact settled.waiting _ cell found
    · rw [version]
      exact settled.committed.version_lt found
    · intro other different otherCell otherFound same
      rw [version] at same
      have keys := settled.committed.versioned.distinct _ _ _ _ otherFound found same
      exact different (key_injective keys).1

/-- The operations behind the next one of an editor are newer than it. -/
theorem Committed.next_le {w : World n} (committed : Committed w) {peer : Fin n} {seq : Nat}
    {cell : Vv} (found : w.cellAt peer (seq + 1) = some cell) :
    ∃ first, w.cellAt peer seq = some first ∧ first.version < cell.version := by
  have stored := (committed.present peer (seq + 1)).mp (by rw [found]; rfl)
  obtain ⟨first, foundFirst⟩ :=
    Option.isSome_iff_exists.mp ((committed.present peer seq).mpr (Nat.lt_of_succ_lt stored))
  exact ⟨first, foundFirst,
    committed.ascending peer seq (seq + 1) first cell (Nat.lt_succ_self seq) foundFirst found⟩

theorem peerNextSeq_integrate (es : EditorState n) (cid : Fin n) (best : Best n) :
    (es.integrate cid best).peerNextSeq =
      Function.update es.peerNextSeq best.peer (es.peerNextSeq best.peer + 1) := by
  unfold EditorState.integrate
  split
  · split <;> rfl
  · rfl

theorem Queued.integrate {es : EditorState n} {cid : Fin n} {committed : Nat}
    (queued : Queued es cid committed) {best : Best n}
    (own : best.peer = cid → best.seq = es.peerNextSeq cid ∧ best.seq < committed) :
    Queued (es.integrate cid best) cid committed := by
  obtain ⟨seqs, nextSeq, lower, upper⟩ := queued
  have next := peerNextSeq_integrate es cid best
  by_cases same : best.peer = cid
  · obtain ⟨seqEq, stored⟩ := own same
    obtain ⟨op, rest, pendingEq⟩ : ∃ op rest, es.pending = op :: rest := by
      apply List.exists_cons_of_ne_nil
      rintro empty
      rw [empty] at upper
      simp only [List.length_nil, Nat.min_zero] at upper
      omega
    rw [pendingEq] at seqs nextSeq upper
    have seqsEq : es.pendingSeqs = best.seq :: List.range' (best.seq + 1) rest.length := by
      rw [seqs, seqEq, List.length_cons, List.range'_succ]
    have popped : es.integrate cid best =
        { es with
          pending := rest
          pendingSeqs := List.range' (best.seq + 1) rest.length
          peerNextSeq := Function.update es.peerNextSeq best.peer
            (es.peerNextSeq best.peer + 1) } := by
      simp [EditorState.integrate, same, pendingEq, seqsEq]
    rw [popped]
    simp only [List.length_cons] at nextSeq upper
    refine ⟨?_, ?_, ?_, ?_⟩
    · simp only [same, Function.update_self, seqEq]
    · simp only [same, Function.update_self]
      omega
    · simp only [same, Function.update_self]
      omega
    · simp only [same, Function.update_self]
      omega
  · have nextOwn : (es.integrate cid best).peerNextSeq cid = es.peerNextSeq cid := by
      rw [next, Function.update_of_ne (Ne.symm same)]
    have pendingEq : (es.integrate cid best).pending =
        es.pending.map fun p => transform p best.op := by
      simp [EditorState.integrate, same]
    refine ⟨?_, ?_, ?_, ?_⟩
    · rw [nextOwn, pendingEq, List.length_map, ← seqs]
      simp [EditorState.integrate, same]
    · rw [nextOwn, pendingEq, List.length_map, ← nextSeq]
      simp [EditorState.integrate, same]
    · rw [nextOwn]
      exact lower
    · rw [nextOwn, pendingEq, List.length_map]
      exact upper

/-- Integrating the least of the next operations. -/
theorem Settled.integrate {w : World n} (settled : Settled w) {best : Best n}
    (candidate : Candidate w best)
    (least : ∀ peer, peer ≠ best.peer →
      ∀ cell ∈ w.cellAt peer (w.es.peerNextSeq peer), best.version ≤ cell.version) :
    Settled { w with
      es := w.es.integrate w.cid best, phase := .sync 0 none,
      integrated := w.integrated ++ [best.version] } := by
  have committed := settled.committed
  obtain ⟨cell, found, atLeast⟩ := candidate.stored
  have stored : best.seq < w.committed best.peer :=
    (committed.present _ _).mp (by rw [found]; rfl)
  refine ⟨⟨committed.versioned, committed.present, committed.ascending⟩, ?_, ?_, ?_, ?_⟩
  · apply settled.queued.integrate
    rintro same
    rw [same] at stored
    exact ⟨same ▸ candidate.next, stored⟩
  · refine List.pairwise_append.mpr ⟨settled.sorted, List.pairwise_singleton _ _, ?_⟩
    intro version member last isLast
    obtain rfl := List.mem_singleton.mp isLast
    exact candidate.newer version member
  · intro version member
    rcases List.mem_append.mp member with before | now
    · exact settled.old version before
    · obtain rfl := List.mem_singleton.mp now
      exact candidate.old
  · intro peer waitingCell foundWaiting version member
    simp only [peerNextSeq_integrate] at foundWaiting
    by_cases same : peer = best.peer
    · -- the next operation of the same editor is newer than the one integrated
      subst same
      rw [Function.update_self, ← candidate.next] at foundWaiting
      obtain ⟨first, foundFirst, newer⟩ := committed.next_le foundWaiting
      obtain rfl := Option.some.inj (found.symm.trans foundFirst)
      have beyond : best.version < waitingCell.version := lt_of_le_of_lt atLeast newer
      rcases List.mem_append.mp member with before | now
      · exact (candidate.newer version before).trans beyond
      · obtain rfl := List.mem_singleton.mp now
        exact beyond
    · rw [Function.update_of_ne same] at foundWaiting
      rcases List.mem_append.mp member with before | now
      · exact settled.waiting peer waitingCell foundWaiting version before
      · obtain rfl := List.mem_singleton.mp now
        exact lt_of_le_of_ne (least peer same waitingCell foundWaiting)
          (candidate.distinct peer same waitingCell foundWaiting).symm

/-! ## Puts and edits -/

/-- What is stored after a put is stored before, or it has the next version. -/
theorem cellAt_executePut_cases {w : World n} (versioned : w.db.WellVersioned) {peer other : Fin n}
    {seq otherSeq : Nat} {op : DocOp Byte} {serial : Nat} {cell : Vv}
    (found : (w.executePut peer seq op serial).cellAt other otherSeq = some cell) :
    cell.version = w.db.nextVersion ∨ w.cellAt other otherSeq = some cell := by
  rw [cellAt_executePut versioned] at found
  split at found
  · obtain rfl := Option.some.inj found
    exact Or.inl rfl
  · exact Or.inr found

/-- A put of the editor itself is of its first pending operation. -/
theorem Queued.executePut {w : World n} (queued : Queued w.es w.cid (w.committed w.cid))
    (peer : Fin n) (seq : Nat)
    (own : peer = w.cid → seq = w.es.peerNextSeq w.cid ∧ w.es.pending ≠ [])
    (op : DocOp Byte) (serial : Nat) :
    Queued w.es w.cid ((w.executePut peer seq op serial).committed w.cid) := by
  obtain ⟨seqs, nextSeq, lower, upper⟩ := queued
  refine ⟨seqs, nextSeq, ?_, ?_⟩
  all_goals
    simp only [World.executePut]
    by_cases same : w.cid = peer
    · obtain ⟨first, someOp⟩ := own same.symm
      have length := List.length_pos_of_ne_nil someOp
      rw [← same, Function.update_self]
      omega
    · rw [Function.update_of_ne same]
      assumption

/-- The put is of the next operation of the editor, or of its last one again. -/
theorem Queued.head_seq {es : EditorState n} {cid : Fin n} {committed seq : Nat}
    (queued : Queued es cid committed) (first : es.pendingSeqs.head? = some seq) :
    seq = es.peerNextSeq cid ∧ seq ≤ committed ∧ committed ≤ seq + 1 := by
  have seqEq : seq = es.peerNextSeq cid := by
    rw [queued.seqs] at first
    cases pending : es.pending with
    | nil =>
        rw [pending] at first
        contradiction
    | cons op rest =>
        rw [pending, List.length_cons, List.range'_succ] at first
        exact (Option.some.inj first).symm
  have lower := queued.lower
  have upper := queued.upper
  omega

theorem Settled.executePut {w : World n} (settled : Settled w) (peer : Fin n) (seq : Nat)
    (inOrder : seq ≤ w.committed peer ∧ w.committed peer ≤ seq + 1)
    (own : peer = w.cid → seq = w.es.peerNextSeq w.cid ∧ w.es.pending ≠ []) (op : DocOp Byte)
    (serial : Nat) : Settled (w.executePut peer seq op serial) := by
  have versioned := settled.committed.versioned
  refine ⟨settled.committed.executePut inOrder op serial,
    settled.queued.executePut peer seq own op serial, settled.sorted, ?_, ?_⟩
  · intro version member
    rw [nextVersion_executePut versioned]
    exact (settled.old version member).trans (Int.lt_succ _)
  · intro other cell found version member
    rcases cellAt_executePut_cases versioned found with fresh | stored
    · rw [fresh]
      exact settled.old version member
    · exact settled.waiting other cell stored version member

theorem Candidate.executePut {w : World n} (settled : Settled w) {best : Best n}
    (candidate : Candidate w best) (peer : Fin n) (seq : Nat) (op : DocOp Byte) (serial : Nat) :
    Candidate (w.executePut peer seq op serial) best := by
  have versioned := settled.committed.versioned
  refine ⟨candidate.next, candidate.newer, ?_, ?_, ?_⟩
  · rw [nextVersion_executePut versioned]
    exact candidate.old.trans (Int.lt_succ _)
  · obtain ⟨cell, found, atLeast⟩ := candidate.stored
    rw [cellAt_executePut versioned]
    split
    · exact ⟨_, rfl, candidate.old.le⟩
    · exact ⟨cell, found, atLeast⟩
  · intro other different cell found
    rcases cellAt_executePut_cases versioned found with fresh | stored
    · rw [fresh]
      exact candidate.old.ne'
    · exact candidate.distinct other different cell stored

theorem Queued.makeEdit {es : EditorState n} {cid : Fin n} {committed : Nat}
    (queued : Queued es cid committed) (op : DocOp Byte) :
    Queued (es.makeEdit op) cid committed := by
  obtain ⟨seqs, nextSeq, lower, upper⟩ := queued
  refine ⟨?_, ?_, lower, ?_⟩
  · simp only [EditorState.makeEdit, List.length_append, List.length_singleton, seqs, nextSeq]
    rw [List.range'_concat, Nat.one_mul]
  · simp only [EditorState.makeEdit, List.length_append, List.length_singleton, nextSeq]
    omega
  · simp only [EditorState.makeEdit, List.length_append, List.length_singleton]
    omega

theorem Settled.makeEdit {w : World n} (settled : Settled w) (op : DocOp Byte) (phase : Phase n) :
    Settled { w with es := w.es.makeEdit op, phase := phase } := by
  have committed := settled.committed
  exact ⟨⟨committed.versioned, committed.present, committed.ascending⟩, settled.queued.makeEdit op,
    settled.sorted, settled.old, settled.waiting⟩

/-! ## Every run -/

/-- Outside of a round there is no candidate. -/
theorem Settled.ordered {w : World n} (settled : Settled w)
    (noCandidate : w.phase.best? = none) : Ordered w :=
  { settled with candidate := by simp [noCandidate] }

theorem Ordered.executePut {w : World n} (ordered : Ordered w) {peer : Fin n} {seq : Nat}
    (inOrder : seq ≤ w.committed peer ∧ w.committed peer ≤ seq + 1)
    (own : peer = w.cid → seq = w.es.peerNextSeq w.cid ∧ w.es.pending ≠ []) (op : DocOp Byte)
    (serial : Nat) : Ordered (w.executePut peer seq op serial) :=
  { ordered.toSettled.executePut peer seq inOrder own op serial with
    candidate := fun best picked =>
      (ordered.candidate best picked).executePut ordered.toSettled peer seq op serial }

theorem Ordered.step {w v : World n} {action : Action n} (ordered : Ordered w)
    (least : w.PicksLeast action) (stepped : w.step action = some v) : Ordered v := by
  have settled := ordered.toSettled
  cases steps_of_step stepped with
  | get peer best inRound isPeer =>
      refine { settled.setPhase _ _ with candidate := ?_ }
      intro picked chosen
      refine Candidate.setPhase (settled.candidate_of_get ?_ chosen) _ _
      rintro old rfl
      exact ordered.candidate old (by rw [inRound]; rfl)
  | timeout peer best inRound =>
      refine { settled.setPhase _ _ with candidate := ?_ }
      intro picked chosen
      exact Candidate.setPhase (ordered.candidate picked (inRound ▸ chosen)) _ _
  | roundWithout => exact (settled.setPhase w.serial .edit).ordered rfl
  | roundWith best picked =>
      have candidate := ordered.candidate best picked
      exact (settled.integrate candidate (least best picked)).ordered rfl
  | noEdit => exact (settled.setPhase w.serial .submit).ordered rfl
  | edit op => exact (settled.makeEdit op .submit).ordered rfl
  | submit op rest seq pending isFirst =>
      obtain ⟨first, inOrder⟩ := settled.queued.head_seq isFirst
      have put := settled.executePut w.cid seq inOrder
        (fun _ => ⟨first, by simp [pending]⟩) op (w.serial + serialStep)
      exact (put.setPhase _ .pause).ordered rfl
  | noSubmit => exact (settled.setPhase w.serial .pause).ordered rfl
  | wake => exact (settled.setPhase w.serial (.sync 0 none)).ordered rfl
  | peerPut peer again op serial seq other inOrder =>
      exact ordered.executePut inOrder (fun own => absurd own other) op serial

/-- The order of integration, in every run whose rounds pick the least of the
next operations that are committed when they end: the editor integrates operations
at strictly increasing versions. -/
theorem integration_order {docId : ByteString} {cid : Fin n} {actions : List (Action n)}
    {w : World n} (run : (start docId cid).perform actions = some w)
    (least : Transition.Permitted World.step PicksLeast (start docId cid) actions) :
    w.integrated.Pairwise (· < ·) := by
  have ordered : Ordered w := Transition.perform_induction
    (fun _ _ _ ordered permitted stepped => ordered.step permitted stepped)
    (ordered_start docId cid) least run
  exact ordered.sorted

/-- The edit that the other editors make. -/
def letter : DocOp Byte :=
  .insert 0 (ascii ['x'])

/-- Both other editors commit before the editor asks. -/
def commitsFirst : List (Action 3) :=
  [.peerPut 0 false letter 0, .peerPut 1 false letter 1, .get, .get, .get, .endRound,
    .get, .get, .get, .endRound]

/-- The editor asks for the first editor, then both other editors commit, and
then the editor asks for the second one. -/
def commitsBetween : List (Action 3) :=
  [.get, .peerPut 0 false letter 0, .peerPut 1 false letter 1, .get, .get, .endRound,
    .get, .get, .get, .endRound]

theorem integration_order_commitsFirst : ∃ w : World 3,
    (start (ascii ['d']) 2).perform commitsFirst = some w ∧ w.integrated = [1, 2] ∧
      w.integrated.Pairwise (· < ·) := by
  have facts : ((start (ascii ['d']) (2 : Fin 3)).perform commitsFirst).any (fun w =>
      w.integrated = [1, 2]) = true := by
    decide +kernel
  obtain ⟨w, run, integrated⟩ := (Option.any_eq_true _ _).mp facts
  exact ⟨w, run, of_decide_eq_true integrated, integration_order run (by decide +kernel)⟩

/-- The second commit is integrated before the first one. -/
theorem commitsBetween_out_of_order : ¬ ∀ (n : Nat) (docId : ByteString) (cid : Fin n)
    (actions : List (Action n)) (w : World n), (start docId cid).perform actions = some w →
      w.integrated.Pairwise (· < ·) := by
  intro always
  have facts : ((start (ascii ['d']) (2 : Fin 3)).perform commitsBetween).any (fun w =>
      w.integrated = [2, 1]) = true := by
    decide +kernel
  obtain ⟨w, run, integrated⟩ := (Option.any_eq_true _ _).mp facts
  have sorted := always 3 _ _ commitsBetween w run
  rw [of_decide_eq_true integrated] at sorted
  exact absurd sorted (by decide)

end World

end DoomDraft.Collab
