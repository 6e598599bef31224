import DoomDraft.Collab.SyncOrder
import DoomDraft.Document.Replay

/-!
# The text of an editor

The text of an editor should be the text of the operations that it has integrated,
with its pending operations applied to it.  Integrating an operation of another
editor keeps this only if the operation may as well be applied in front of the
pending ones: the editor applies it behind them without transforming it, and a
pending operation that has been put is stored as it was then.
-/

namespace DoomDraft.Collab

open Document Pancy

variable {n : Nat}

namespace World

/-! ## What an editor has integrated, and what it has not -/

/-- The first sequence number of a client that the editor has not integrated. -/
def nextOf (w : World n) (clientId : Nat) : Nat :=
  if h : clientId < n then w.es.peerNextSeq ⟨clientId, h⟩ else 0

/-- The committed operations that the editor has integrated, by version. -/
def integratedOps (w : World n) : List CommittedOp :=
  (readOps w.db w.docId).filter fun c => c.clientSeq < w.nextOf c.clientId

/-- The text of the operations that the editor has integrated. -/
def base (w : World n) : ByteString :=
  reconstruct w.integratedOps

/-- The first pending operation as it is stored, if it has been put. -/
def frozen (w : World n) : Option (DocOp Byte) :=
  (w.cellAt w.cid (w.es.peerNextSeq w.cid)).bind fun cell => deserialize cell.value

/-- The pending operations as the other editors will see them. -/
def inFlight (w : World n) : List (DocOp Byte) :=
  match w.frozen, w.es.pending with
  | some first, _ :: rest => first :: rest
  | _, pending => pending

/-- The pending operations when a remote operation has been integrated: those that
have not been put are transformed. -/
def inFlightAfter (w : World n) (remote : DocOp Byte) : List (DocOp Byte) :=
  match w.frozen, w.es.pending with
  | some first, _ :: rest => first :: rest.map fun p => transform p remote
  | _, pending => pending.map fun p => transform p remote

/-! ## Conditions on steps -/

/-- Operations are integrated at increasing versions. -/
def InOrder (w : World n) : Action n → Prop
  | .endRound => ∀ best ∈ w.phase.best?, ∀ version ∈ w.integrated, version < best.version
  | _ => True

/-- The numbers of what is put are of 64-bit types. -/
def InRange (w : World n) : Action n → Prop
  | .submit => (∀ op ∈ w.es.pending.head?, op.Fits) ∧
      ∀ seq ∈ w.es.pendingSeqs.head?, seq < uint64Size
  | _ => True

/-- The operation is not stored yet, or it is stored as it is and is the newest one
of the document. -/
def NewOrNewest (w : World n) (peer : Fin n) (seq : Nat) (op : DocOp Byte) : Prop :=
  ∀ cell ∈ w.cellAt peer seq, cell.value = serialize op ∧
    ∀ c ∈ readOps w.db w.docId, c.version ≤ cell.version

/-- Where the operation of another editor is integrated, it may as well be applied
in front of the pending operations, and what is put is new or the newest. -/
def Merges (w : World n) : Action n → Prop
  | .endRound => ∀ best ∈ w.phase.best?, best.peer ≠ w.cid →
      applyOp (applyAll w.base w.inFlight) best.op =
        applyAll (applyOp w.base best.op) (w.inFlightAfter best.op)
  | .submit => ∀ op ∈ w.es.pending.head?, ∀ seq ∈ w.es.pendingSeqs.head?,
      w.NewOrNewest w.cid seq op
  | _ => True

instance (w : World n) : ∀ action, Decidable (w.InOrder action)
  | .endRound => inferInstanceAs (Decidable (∀ best ∈ w.phase.best?, _))
  | .get | .timeout | .edit _ | .submit | .wake | .peerPut _ _ _ _ => isTrue trivial

instance (w : World n) : ∀ action, Decidable (w.InRange action)
  | .submit => inferInstanceAs (Decidable (_ ∧ _))
  | .get | .timeout | .edit _ | .endRound | .wake | .peerPut _ _ _ _ => isTrue trivial

instance (w : World n) (peer : Fin n) (seq : Nat) (op : DocOp Byte) :
    Decidable (w.NewOrNewest peer seq op) :=
  have (cell : Vv) : Decidable (∀ c ∈ readOps w.db w.docId, c.version ≤ cell.version) :=
    List.decidableBAll _ _
  inferInstanceAs (Decidable (∀ cell ∈ w.cellAt peer seq, _ ∧ _))

instance (w : World n) : ∀ action, Decidable (w.Merges action)
  | .endRound => inferInstanceAs (Decidable (∀ best ∈ w.phase.best?, _ → _))
  | .submit => inferInstanceAs (Decidable (∀ op ∈ _, ∀ seq ∈ _, w.NewOrNewest _ _ _))
  | .get | .timeout | .edit _ | .wake | .peerPut _ _ _ _ => isTrue trivial

/-! ## The invariant -/

/-- What a round has picked is stored, and what is older than it in the database was
older already when it was picked. -/
structure Chosen (w : World n) (best : Best n) : Prop where
  next : best.seq = w.es.peerNextSeq best.peer
  fits : best.op.Fits
  stored : ∃ cell, w.cellAt best.peer best.seq = some cell ∧ cell.value = serialize best.op ∧
    best.version ≤ cell.version ∧ ∀ other otherSeq, ∀ older ∈ w.cellAt other otherSeq,
      older.version < cell.version → older.version < best.version

/-- What the editor has integrated and what is still to come, at every step of its loop:
its text is that of the integrated operations with its own pending ones applied. -/
structure Tracked (w : World n) : Prop where
  committed : Committed w
  queued : Queued w.es w.cid (w.committed w.cid)
  lower : ∀ peer, w.es.peerNextSeq peer ≤ w.committed peer
  keys : ∀ key cell, w.db.db.find? key = some cell → ∃ peer seq, key = w.key peer seq
  ops : ∀ peer seq, ∀ cell ∈ w.cellAt peer seq, seq < uint64Size ∧
    ∃ op : DocOp Byte, op.Fits ∧ cell.value = serialize op
  /-- What is older than an integrated operation was older when it was integrated. -/
  settled : ∀ peer, ∀ seq < w.es.peerNextSeq peer, ∀ cell ∈ w.cellAt peer seq,
    ∀ other otherSeq, ∀ older ∈ w.cellAt other otherSeq, older.version < cell.version →
      ∃ version ∈ w.integrated, older.version < version
  text : w.es.localText = applyAll w.base w.inFlight
  chosen : ∀ best ∈ w.phase.best?, Chosen w best

/-! ## The stored operations -/

/-- The operation of a cell as `read_ops` returns it. -/
def stored (peer : Fin n) (seq : Nat) (version : Int) (op : DocOp Byte) : CommittedOp :=
  ⟨version, peer, seq, op, []⟩

theorem Tracked.readCell_eq {w : World n} (tracked : Tracked w) (small : n ≤ uint64Size)
    {peer : Fin n} {seq : Nat} {cell : Vv} (found : w.cellAt peer seq = some cell)
    {op : DocOp Byte} (fits : op.Fits) (value : cell.value = serialize op) :
    readCell w.docId (w.key peer seq) cell = some (stored peer seq cell.version op) := by
  have idFits : peer.val < uint64Size := Nat.lt_of_lt_of_le peer.isLt small
  have seqFits := (tracked.ops peer seq cell found).1
  have positive := (tracked.committed.versioned.bounds _ cell found).1
  have shape : cell = ⟨serialize op, cell.version⟩ := by rw [← value]
  rw [shape]
  exact readCell_opKey idFits seqFits fits positive.ne'

/-- The operations that `read_ops` returns. -/
theorem Tracked.mem_readOps {w : World n} (tracked : Tracked w) (small : n ≤ uint64Size)
    {c : CommittedOp} : c ∈ readOps w.db w.docId ↔ ∃ peer seq cell op,
      w.cellAt peer seq = some cell ∧ op.Fits ∧ cell.value = serialize op ∧
        c = stored peer seq cell.version op := by
  rw [Document.mem_readOps]
  constructor
  · rintro ⟨key, cell, found, read⟩
    obtain ⟨peer, seq, rfl⟩ := tracked.keys key cell found
    obtain ⟨-, op, fits, value⟩ := tracked.ops peer seq cell found
    rw [tracked.readCell_eq small found fits value] at read
    exact ⟨peer, seq, cell, op, found, fits, value, (Option.some.inj read).symm⟩
  · rintro ⟨peer, seq, cell, op, found, fits, value, rfl⟩
    exact ⟨w.key peer seq, cell, found, tracked.readCell_eq small found fits value⟩

theorem nextOf_val (w : World n) (peer : Fin n) : w.nextOf peer = w.es.peerNextSeq peer := by
  simp [nextOf]

/-- The operations that an editor has integrated. -/
theorem Tracked.mem_integratedOps {w : World n} (tracked : Tracked w) (small : n ≤ uint64Size)
    {c : CommittedOp} : c ∈ w.integratedOps ↔ ∃ peer, ∃ seq < w.es.peerNextSeq peer, ∃ cell op,
      w.cellAt peer seq = some cell ∧ op.Fits ∧ cell.value = serialize op ∧
        c = stored peer seq cell.version op := by
  rw [integratedOps, List.mem_filter, tracked.mem_readOps small, decide_eq_true_eq]
  constructor
  · rintro ⟨⟨peer, seq, cell, op, found, fits, value, rfl⟩, before⟩
    rw [show (stored peer seq cell.version op).clientId = peer from rfl, nextOf_val] at before
    exact ⟨peer, seq, before, cell, op, found, fits, value, rfl⟩
  · rintro ⟨peer, seq, before, cell, op, found, fits, value, rfl⟩
    refine ⟨⟨peer, seq, cell, op, found, fits, value, rfl⟩, ?_⟩
    rw [show (stored peer seq cell.version op).clientId = peer from rfl, nextOf_val]
    exact before

theorem Tracked.keySorted_integratedOps {w : World n} (tracked : Tracked w) :
    KeySorted CommittedOp.version w.integratedOps :=
  (keySorted_readOps tracked.committed.versioned w.docId).filter _

/-! ## Integration -/

/-- The state after a round that has picked an operation. -/
def integrateBest (w : World n) (best : Best n) : World n :=
  { w with
    es := w.es.integrate w.cid best
    phase := .sync 0 none
    integrated := w.integrated ++ [best.version] }

/-- Everything integrated is older than what is integrated next. -/
theorem Tracked.version_lt {w : World n} (tracked : Tracked w) {best : Best n}
    (chosen : Chosen w best) (newest : ∀ version ∈ w.integrated, version < best.version)
    {bestCell : Vv} (found : w.cellAt best.peer best.seq = some bestCell)
    (atLeast : best.version ≤ bestCell.version) {peer : Fin n} {seq : Nat}
    (before : seq < w.es.peerNextSeq peer) {cell : Vv} (member : w.cellAt peer seq = some cell) :
    cell.version < bestCell.version := by
  rcases Int.lt_trichotomy cell.version bestCell.version with less | same | greater
  · exact less
  · -- equal versions are those of one key, but the next operation is not integrated
    have keys := tracked.committed.versioned.distinct _ _ cell bestCell member found same
    obtain ⟨rfl, rfl⟩ := key_injective keys
    rw [chosen.next] at before
    exact absurd before (Nat.lt_irrefl _)
  · obtain ⟨version, old, less⟩ :=
      tracked.settled peer seq before cell member best.peer best.seq bestCell found greater
    have := newest version old
    omega

theorem peerNextSeq_integrated (w : World n) (best : Best n) (peer : Fin n) :
    (w.integrateBest best).es.peerNextSeq peer =
      if peer = best.peer then w.es.peerNextSeq best.peer + 1 else w.es.peerNextSeq peer := by
  rw [integrateBest, peerNextSeq_integrate, Function.update_apply]

theorem serialize_injective {op other : DocOp Byte} (fits : op.Fits) (otherFits : other.Fits)
    (same : serialize op = serialize other) : op = other := by
  have read := deserialize_serialize fits
  rw [same, deserialize_serialize otherFits] at read
  exact (Option.some.inj read).symm

/-- What is integrated next comes behind everything integrated. -/
theorem Tracked.integratedOps_integrated {w : World n} (tracked : Tracked w)
    (small : n ≤ uint64Size) {best : Best n} (chosen : Chosen w best)
    (newest : ∀ version ∈ w.integrated, version < best.version) :
    ∃ version, (w.integrateBest best).integratedOps =
      w.integratedOps ++ [stored best.peer best.seq version best.op] := by
  obtain ⟨bestCell, found, value, atLeast, -⟩ := chosen.stored
  refine ⟨bestCell.version, ?_⟩
  have leftSorted : KeySorted CommittedOp.version (w.integrateBest best).integratedOps :=
    (keySorted_readOps tracked.committed.versioned w.docId).filter _
  have rightSorted : KeySorted CommittedOp.version
      (w.integratedOps ++ [stored best.peer best.seq bestCell.version best.op]) := by
    refine List.pairwise_append.mpr
      ⟨tracked.keySorted_integratedOps, List.pairwise_singleton _ _, ?_⟩
    intro c member last isLast
    obtain rfl := List.mem_singleton.mp isLast
    obtain ⟨peer, seq, before, cell, op, cellFound, -, -, rfl⟩ :=
      (tracked.mem_integratedOps small).mp member
    exact tracked.version_lt chosen newest found atLeast before cellFound
  refine leftSorted.eq_of_mem_iff rightSorted fun c => ?_
  rw [List.mem_append, List.mem_singleton, tracked.mem_integratedOps small, integratedOps,
    List.mem_filter, decide_eq_true_eq]
  change c ∈ readOps w.db w.docId ∧ _ ↔ _
  rw [tracked.mem_readOps small]
  constructor
  · rintro ⟨⟨peer, seq, cell, op, member, fits, cellValue, rfl⟩, before⟩
    rw [show (stored peer seq cell.version op).clientId = peer from rfl, nextOf_val,
      peerNextSeq_integrated] at before
    change seq < _ at before
    by_cases isNext : peer = best.peer ∧ seq = best.seq
    · obtain ⟨rfl, rfl⟩ := isNext
      obtain rfl := Option.some.inj (found.symm.trans member)
      obtain rfl := serialize_injective fits chosen.fits (cellValue.symm.trans value)
      exact Or.inr rfl
    · refine Or.inl ⟨peer, seq, ?_, cell, op, member, fits, cellValue, rfl⟩
      split at before
      · rename_i same
        subst same
        have different : seq ≠ w.es.peerNextSeq best.peer := fun eq =>
          isNext ⟨rfl, eq.trans chosen.next.symm⟩
        omega
      · exact before
  · rintro (⟨peer, seq, before, cell, op, member, fits, cellValue, rfl⟩ | rfl)
    · refine ⟨⟨peer, seq, cell, op, member, fits, cellValue, rfl⟩, ?_⟩
      rw [show (stored peer seq cell.version op).clientId = peer from rfl, nextOf_val,
        peerNextSeq_integrated]
      change seq < _
      split
      · rename_i same
        exact Nat.lt_succ_of_lt (same ▸ before)
      · exact before
    · refine ⟨⟨_, _, bestCell, best.op, found, chosen.fits, value, rfl⟩, ?_⟩
      rw [show (stored best.peer best.seq bestCell.version best.op).clientId = best.peer from rfl,
        nextOf_val, peerNextSeq_integrated, if_pos rfl]
      change best.seq < _
      rw [chosen.next]
      exact Nat.lt_succ_self _

theorem Tracked.base_integrated {w : World n} (tracked : Tracked w) (small : n ≤ uint64Size)
    {best : Best n} (chosen : Chosen w best)
    (newest : ∀ version ∈ w.integrated, version < best.version) :
    (w.integrateBest best).base = applyOp w.base best.op := by
  obtain ⟨version, ops⟩ := tracked.integratedOps_integrated small chosen newest
  rw [base, ops, base, reconstruct, List.foldl_append]
  rfl

/-- The first pending operation, if it is stored, is one that fits. -/
theorem frozen_eq {w : World n} {cell : Vv} {op : DocOp Byte}
    (found : w.cellAt w.cid (w.es.peerNextSeq w.cid) = some cell) (fits : op.Fits)
    (value : cell.value = serialize op) : w.frozen = some op := by
  rw [frozen, found, Option.bind_some, value, deserialize_serialize fits]

/-- The next operation of an editor that is stored is its first pending one. -/
theorem Tracked.exists_pending {w : World n} (tracked : Tracked w) {cell : Vv}
    (found : w.cellAt w.cid (w.es.peerNextSeq w.cid) = some cell) :
    ∃ op rest, w.es.pending = op :: rest := by
  have stored := (tracked.committed.present _ _).mp (by rw [found]; rfl)
  have upper := tracked.queued.upper
  apply List.exists_cons_of_ne_nil
  rintro empty
  rw [empty, List.length_nil, Nat.min_zero] at upper
  omega

/-- Behind the first pending operation nothing is stored. -/
theorem Tracked.cellAt_succ {w : World n} (tracked : Tracked w) :
    w.cellAt w.cid (w.es.peerNextSeq w.cid + 1) = none := by
  cases found : w.cellAt w.cid (w.es.peerNextSeq w.cid + 1) with
  | none => rfl
  | some cell =>
      have stored := (tracked.committed.present _ _).mp (by rw [found]; rfl)
      have upper := tracked.queued.upper
      omega

/-- The text after the integration of an operation. -/
theorem Tracked.text_integrated {w : World n} (tracked : Tracked w) (small : n ≤ uint64Size)
    {best : Best n} (chosen : Chosen w best)
    (newest : ∀ version ∈ w.integrated, version < best.version)
    (merges : best.peer ≠ w.cid → applyOp (applyAll w.base w.inFlight) best.op =
      applyAll (applyOp w.base best.op) (w.inFlightAfter best.op)) :
    (w.integrateBest best).es.localText =
      applyAll (w.integrateBest best).base (w.integrateBest best).inFlight := by
  rw [tracked.base_integrated small chosen newest]
  by_cases own : best.peer = w.cid
  · -- the own operation moves from the pending operations to the integrated ones
    obtain ⟨cell, found, value, -⟩ := chosen.stored
    rw [own, chosen.next, own] at found
    obtain ⟨op, rest, pending⟩ := tracked.exists_pending found
    have frozen := frozen_eq found chosen.fits value
    have before : w.inFlight = best.op :: rest := by
      rw [inFlight, frozen, pending]
    have nothing : (w.integrateBest best).frozen = none := by
      have next := peerNextSeq_integrated w best w.cid
      rw [if_pos own.symm, own] at next
      rw [World.frozen]
      change (w.cellAt w.cid ((w.integrateBest best).es.peerNextSeq w.cid)).bind _ = none
      rw [next, tracked.cellAt_succ]
      rfl
    have head : w.es.pendingSeqs.head? = some best.seq := by
      rw [tracked.queued.seqs, pending, List.length_cons, List.range'_succ, chosen.next, own]
      rfl
    have es : (w.integrateBest best).es.pending = rest ∧
        (w.integrateBest best).es.localText = w.es.localText := by
      simp [integrateBest, EditorState.integrate, own, pending, head]
    have after : (w.integrateBest best).inFlight = rest := by
      rw [inFlight, nothing, es.1]
    rw [es.2, after, tracked.text, before]
    rfl
  · have next : (w.integrateBest best).es.peerNextSeq w.cid = w.es.peerNextSeq w.cid := by
      rw [peerNextSeq_integrated, if_neg (Ne.symm own)]
    have frozen : (w.integrateBest best).frozen = w.frozen := by
      rw [World.frozen, World.frozen]
      change (w.cellAt w.cid ((w.integrateBest best).es.peerNextSeq w.cid)).bind _ = _
      rw [next]
    have es : (w.integrateBest best).es.localText = applyOp w.es.localText best.op ∧
        (w.integrateBest best).es.pending = w.es.pending.map fun p => transform p best.op := by
      simp [integrateBest, EditorState.integrate, own]
    have after : (w.integrateBest best).inFlight = w.inFlightAfter best.op := by
      rw [inFlight, frozen, es.2, inFlightAfter]
      cases w.frozen with
      | none => cases w.es.pending <;> rfl
      | some first => cases w.es.pending <;> rfl
    rw [es.1, after, tracked.text]
    exact merges own

theorem Tracked.integrated {w : World n} (tracked : Tracked w) (small : n ≤ uint64Size)
    {best : Best n} (chosen : Chosen w best)
    (newest : ∀ version ∈ w.integrated, version < best.version)
    (merges : best.peer ≠ w.cid → applyOp (applyAll w.base w.inFlight) best.op =
      applyAll (applyOp w.base best.op) (w.inFlightAfter best.op)) :
    Tracked (w.integrateBest best) := by
  have committed := tracked.committed
  obtain ⟨bestCell, found, value, atLeast, older⟩ := chosen.stored
  have isStored : best.seq < w.committed best.peer :=
    (committed.present _ _).mp (by rw [found]; rfl)
  refine ⟨⟨committed.versioned, committed.present, committed.ascending⟩, ?_, ?_, tracked.keys,
    tracked.ops, ?_, tracked.text_integrated small chosen newest merges, ?_⟩
  · apply tracked.queued.integrate
    intro own
    rw [own] at isStored
    exact ⟨own ▸ chosen.next, isStored⟩
  · intro peer
    rw [peerNextSeq_integrated]
    split
    · rename_i same
      subst same
      rw [← chosen.next]
      exact isStored
    · exact tracked.lower peer
  · intro peer seq before cell cellFound other otherSeq olderCell olderFound less
    change w.cellAt peer seq = some cell at cellFound
    change w.cellAt other otherSeq = some olderCell at olderFound
    rw [peerNextSeq_integrated] at before
    by_cases isNext : peer = best.peer ∧ seq = best.seq
    · obtain ⟨rfl, rfl⟩ := isNext
      obtain rfl := Option.some.inj (found.symm.trans cellFound)
      refine ⟨best.version, List.mem_append_right _ (List.mem_singleton_self _), ?_⟩
      exact older other otherSeq olderCell olderFound less
    · have earlier : seq < w.es.peerNextSeq peer := by
        split at before
        · rename_i same
          subst same
          have different : seq ≠ w.es.peerNextSeq best.peer := fun eq =>
            isNext ⟨rfl, eq.trans chosen.next.symm⟩
          omega
        · exact before
      obtain ⟨version, member, newer⟩ :=
        tracked.settled peer seq earlier cell cellFound other otherSeq olderCell olderFound less
      exact ⟨version, List.mem_append_left _ member, newer⟩
  · intro other nonePending
    cases nonePending

/-! ## Puts -/

/-- The condition on a put, in terms of cells. -/
theorem Tracked.newest_of_stored {w : World n} (tracked : Tracked w) (small : n ≤ uint64Size)
    {peer : Fin n} {seq : Nat} {op : DocOp Byte} (newOrNewest : w.NewOrNewest peer seq op)
    {cell : Vv} (found : w.cellAt peer seq = some cell) :
    cell.value = serialize op ∧ ∀ other otherSeq, ∀ otherCell ∈ w.cellAt other otherSeq,
      otherCell.version ≤ cell.version := by
  obtain ⟨value, newest⟩ := newOrNewest cell found
  refine ⟨value, fun other otherSeq otherCell otherFound => ?_⟩
  obtain ⟨-, otherOp, fits, otherValue⟩ := tracked.ops other otherSeq otherCell otherFound
  exact newest _ ((tracked.mem_readOps small).mpr
    ⟨other, otherSeq, otherCell, otherOp, otherFound, fits, otherValue, rfl⟩)

/-- A put replaces the operation that it overwrites by one that is the newest. -/
theorem Tracked.readOps_executePut {w : World n} (tracked : Tracked w) (small : n ≤ uint64Size)
    {peer : Fin n} {seq : Nat} {op : DocOp Byte} (fits : op.Fits) (seqFits : seq < uint64Size)
    (serial : Nat) :
    readOps (w.executePut peer seq op serial).db w.docId =
      (readOps w.db w.docId).filter (fun c => c.version ≠ (w.db.cell (w.key peer seq)).version) ++
        [stored peer seq w.db.nextVersion op] := by
  have versioned := tracked.committed.versioned
  have idFits : peer.val < uint64Size := Nat.lt_of_lt_of_le peer.isLt small
  have dbEq : (w.executePut peer seq op serial).db = w.db.write (w.key peer seq) (serialize op) :=
    versioned.processPut_any serial _ _
  have read : readCell w.docId (w.key peer seq) ⟨serialize op, w.db.nextVersion⟩ =
      some (stored peer seq w.db.nextVersion op) :=
    readCell_opKey idFits seqFits fits versioned.positive.ne'
  rw [dbEq, readOps_write versioned, read]
  rfl

/-- A put of a new operation, or of the newest one again, leaves the operations that
an editor has integrated as they are. -/
theorem Tracked.base_executePut {w : World n} (tracked : Tracked w) (small : n ≤ uint64Size)
    {peer : Fin n} {seq : Nat} {op : DocOp Byte}
    (inOrder : seq ≤ w.committed peer ∧ w.committed peer ≤ seq + 1) (fits : op.Fits)
    (seqFits : seq < uint64Size) (newOrNewest : w.NewOrNewest peer seq op) (serial : Nat) :
    (w.executePut peer seq op serial).base = w.base := by
  have versioned := tracked.committed.versioned
  have after : readOps (w.executePut peer seq op serial).db w.docId = _ :=
    tracked.readOps_executePut small fits seqFits serial
  have nextOf : (w.executePut peer seq op serial).nextOf = w.nextOf := rfl
  have docId : (w.executePut peer seq op serial).docId = w.docId := rfl
  have newSeq : (stored peer seq w.db.nextVersion op).clientSeq = seq := rfl
  have newId : (stored peer seq w.db.nextVersion op).clientId = peer := rfl
  rw [base, integratedOps, docId, nextOf, after, base, integratedOps]
  cases found : w.cellAt peer seq with
  | none =>
      -- a new operation has not been integrated
      have unread : ∀ cell, w.db.db.find? (w.key peer seq) = some cell →
          readCell w.docId (w.key peer seq) cell = none := by
        intro cell stored
        rw [show w.db.db.find? (w.key peer seq) = none from found] at stored
        contradiction
      have isNew : ¬ seq < w.committed peer := by
        intro before
        have isSome := (tracked.committed.present peer seq).mpr before
        rw [found] at isSome
        contradiction
      have lower := tracked.lower peer
      have dropped : [stored peer seq w.db.nextVersion op].filter
          (fun c => decide (c.clientSeq < w.nextOf c.clientId)) = [] := by
        rw [List.filter_singleton, newSeq, newId, nextOf_val, decide_eq_false (by omega)]
        rfl
      rw [filter_readOps_eq_self versioned unread, List.filter_append, dropped, List.append_nil]
  | some cell =>
      -- the newest operation gets a newer version
      obtain ⟨value, newest⟩ := newOrNewest cell found
      have cellEq : (w.db.cell (w.key peer seq)).version = cell.version := by
        have atKey : w.db.db.find? (w.key peer seq) = some cell := found
        rw [PancyDb.cell, PancyDb.findVvptr, atKey]
        rfl
      have member : stored peer seq cell.version op ∈ readOps w.db w.docId :=
        (tracked.mem_readOps small).mpr ⟨peer, seq, cell, op, found, fits, value, rfl⟩
      have before : readOps w.db w.docId =
          (readOps w.db w.docId).filter (fun c => c.version ≠ cell.version) ++
            [stored peer seq cell.version op] :=
        (keySorted_readOps versioned w.docId).eq_filter_append member newest
      rw [cellEq]
      conv_rhs => rw [before]
      simp only [List.filter_append, List.filter_singleton, reconstruct, List.foldl_append]
      have oldSeq : (stored peer seq cell.version op).clientSeq = seq := rfl
      have oldId : (stored peer seq cell.version op).clientId = peer := rfl
      rw [newSeq, newId, oldSeq, oldId]
      cases decide (seq < w.nextOf peer) <;> rfl

theorem Tracked.older_executePut {w : World n} (tracked : Tracked w) (small : n ≤ uint64Size)
    {put : Fin n} {putSeq : Nat} {op : DocOp Byte} (newOrNewest : w.NewOrNewest put putSeq op)
    {serial : Nat} {peer other : Fin n} {seq otherSeq : Nat} {cell after older : Vv}
    (found : w.cellAt peer seq = some cell)
    (foundAfter : (w.executePut put putSeq op serial).cellAt peer seq = some after)
    (olderFound : (w.executePut put putSeq op serial).cellAt other otherSeq = some older)
    (less : older.version < after.version) :
    w.cellAt other otherSeq = some older ∧ older.version < cell.version := by
  have versioned := tracked.committed.versioned
  rw [cellAt_executePut versioned] at foundAfter olderFound
  split at olderFound
  · -- what has been put is not older than anything
    obtain rfl := Option.some.inj olderFound
    split at foundAfter
    · obtain rfl := Option.some.inj foundAfter
      exact absurd less (lt_irrefl _)
    · have bound := tracked.committed.version_lt foundAfter
      exact absurd less (by simpa using bound.le)
  · rename_i elsewhere
    refine ⟨olderFound, ?_⟩
    split at foundAfter
    · rename_i here
      obtain ⟨rfl, rfl⟩ := here
      have atMost := (tracked.newest_of_stored small newOrNewest found).2 other otherSeq older
        olderFound
      refine lt_of_le_of_ne atMost fun same => elsewhere ?_
      exact key_injective (versioned.distinct _ _ older cell olderFound found same)
    · obtain rfl := Option.some.inj (found.symm.trans foundAfter)
      exact less

theorem Chosen.executePut {w : World n} (tracked : Tracked w) (small : n ≤ uint64Size)
    {best : Best n} (chosen : Chosen w best) {peer : Fin n} {seq : Nat} {op : DocOp Byte}
    (newOrNewest : w.NewOrNewest peer seq op) (serial : Nat) :
    Chosen (w.executePut peer seq op serial) best := by
  have versioned := tracked.committed.versioned
  obtain ⟨cell, found, value, atLeast, older⟩ := chosen.stored
  obtain ⟨after, foundAfter, valueAfter, grows⟩ : ∃ after,
      (w.executePut peer seq op serial).cellAt best.peer best.seq = some after ∧
        after.value = serialize best.op ∧ best.version ≤ after.version := by
    rw [cellAt_executePut versioned]
    split
    · rename_i here
      rw [here.1, here.2] at found
      have same := (tracked.newest_of_stored small newOrNewest found).1
      exact ⟨_, rfl, same.symm.trans value,
        atLeast.trans (tracked.committed.version_lt found).le⟩
    · exact ⟨cell, found, value, atLeast⟩
  refine ⟨chosen.next, chosen.fits, after, foundAfter, valueAfter, grows, ?_⟩
  intro other otherSeq olderCell olderFound less
  obtain ⟨foundBefore, lessBefore⟩ :=
    tracked.older_executePut small newOrNewest found foundAfter olderFound less
  exact older other otherSeq olderCell foundBefore lessBefore

/-- A put does not change the pending operations as the others will see them. -/
theorem Tracked.inFlight_executePut {w : World n} (tracked : Tracked w) (small : n ≤ uint64Size)
    {peer : Fin n} {seq : Nat} {op : DocOp Byte} (fits : op.Fits)
    (own : peer = w.cid → seq = w.es.peerNextSeq w.cid ∧ ∃ rest, w.es.pending = op :: rest)
    (newOrNewest : w.NewOrNewest peer seq op) (serial : Nat) :
    (w.executePut peer seq op serial).inFlight = w.inFlight := by
  have versioned := tracked.committed.versioned
  have es : (w.executePut peer seq op serial).es = w.es := rfl
  by_cases mine : peer = w.cid
  · obtain ⟨seqEq, rest, pending⟩ := own mine
    subst mine seqEq
    have after : (w.executePut w.cid (w.es.peerNextSeq w.cid) op serial).cellAt w.cid
        (w.es.peerNextSeq w.cid) = some ⟨serialize op, w.db.nextVersion⟩ := by
      rw [cellAt_executePut versioned, if_pos ⟨rfl, rfl⟩]
    have frozen : (w.executePut w.cid (w.es.peerNextSeq w.cid) op serial).frozen = some op :=
      frozen_eq after fits rfl
    rw [inFlight, frozen, es, pending, inFlight, pending]
    cases found : w.cellAt w.cid (w.es.peerNextSeq w.cid) with
    | none =>
        have notStored : w.frozen = none := by rw [World.frozen, found]; rfl
        rw [notStored]
    | some cell =>
        have value := (tracked.newest_of_stored small newOrNewest found).1
        rw [frozen_eq found fits value]
  · have frozen : (w.executePut peer seq op serial).frozen = w.frozen := by
      rw [World.frozen, World.frozen]
      change ((w.executePut peer seq op serial).cellAt w.cid (w.es.peerNextSeq w.cid)).bind _ = _
      rw [cellAt_executePut versioned, if_neg fun both => mine both.1.symm]
    rw [inFlight, frozen, es, inFlight]

theorem Tracked.executePut {w : World n} (tracked : Tracked w) (small : n ≤ uint64Size)
    {peer : Fin n} {seq : Nat} {op : DocOp Byte}
    (inOrder : seq ≤ w.committed peer ∧ w.committed peer ≤ seq + 1)
    (own : peer = w.cid → seq = w.es.peerNextSeq w.cid ∧ ∃ rest, w.es.pending = op :: rest)
    (fits : op.Fits) (seqFits : seq < uint64Size) (newOrNewest : w.NewOrNewest peer seq op)
    (serial : Nat) : Tracked (w.executePut peer seq op serial) := by
  have versioned := tracked.committed.versioned
  refine ⟨tracked.committed.executePut inOrder op serial, ?_, ?_, ?_, ?_, ?_, ?_, ?_⟩
  · apply tracked.queued.executePut
    intro mine
    obtain ⟨seqEq, rest, pending⟩ := own mine
    exact ⟨seqEq, by simp [pending]⟩
  · intro other
    refine (tracked.lower other).trans ?_
    simp only [World.executePut, Function.update_apply]
    split
    · rename_i same
      exact same ▸ Nat.le_max_left _ _
    · exact Nat.le_refl _
  · intro key cell found
    have dbEq : (w.executePut peer seq op serial).db =
        w.db.write (w.key peer seq) (serialize op) := versioned.processPut_any serial _ _
    rw [dbEq, PancyDb.find?_write] at found
    split at found
    · rename_i atPut
      exact ⟨peer, seq, atPut⟩
    · exact tracked.keys key cell found
  · intro other otherSeq cell found
    rw [cellAt_executePut versioned] at found
    split at found
    · rename_i here
      obtain rfl := Option.some.inj found
      exact ⟨here.2 ▸ seqFits, op, fits, rfl⟩
    · exact tracked.ops other otherSeq cell found
  · intro other otherSeq before cell found third thirdSeq older olderFound less
    obtain ⟨old, oldFound⟩ := Option.isSome_iff_exists.mp
      ((tracked.committed.present other otherSeq).mpr
        (Nat.lt_of_lt_of_le before (tracked.lower other)))
    obtain ⟨foundBefore, lessBefore⟩ :=
      tracked.older_executePut small newOrNewest oldFound found olderFound less
    exact tracked.settled other otherSeq before old oldFound third thirdSeq older foundBefore
      lessBefore
  · rw [tracked.base_executePut small inOrder fits seqFits newOrNewest serial,
      tracked.inFlight_executePut small fits own newOrNewest serial]
    exact tracked.text
  · exact fun best picked =>
      (tracked.chosen best picked).executePut tracked small newOrNewest serial

/-! ## Steps of the editor -/

theorem Tracked.setPhase {w : World n} (tracked : Tracked w) (serial : Nat) {phase : Phase n}
    (chosen : ∀ best ∈ phase.best?, Chosen w best) :
    Tracked { w with serial := serial, phase := phase } where
  committed := ⟨tracked.committed.versioned, tracked.committed.present, tracked.committed.ascending⟩
  queued := tracked.queued
  lower := tracked.lower
  keys := tracked.keys
  ops := tracked.ops
  settled := tracked.settled
  text := tracked.text
  chosen best picked := ⟨(chosen best picked).next, (chosen best picked).fits,
    (chosen best picked).stored⟩

/-- What a round has picked after an answer. -/
theorem Tracked.chosen_of_get {w : World n} (tracked : Tracked w) {peer : Fin n}
    {picked : Best n} {best : Option (Best n)} {serial : Nat}
    (before : ∀ old, best = some old → Chosen w old)
    (picks : considerNext best peer (w.es.peerNextSeq peer)
      (w.db.processGet ⟨serial, w.key peer (w.es.peerNextSeq peer)⟩) = some picked) :
    Chosen w picked := by
  rcases considerNext_cases picks with kept | ⟨someValue, read, rfl, seqEq, versionEq⟩
  · exact before picked kept
  · obtain ⟨cell, found, sameValue, sameVersion⟩ := processGet_of_value_ne_nil someValue
    have version : picked.version = cell.version := versionEq.trans sameVersion
    obtain ⟨-, op, fits, value⟩ := tracked.ops picked.peer _ cell found
    rw [sameValue, value, deserialize_serialize fits] at read
    obtain rfl := Option.some.inj read
    refine ⟨seqEq, fits, cell, seqEq ▸ found, value, version.le, ?_⟩
    intro other otherSeq older _ less
    exact version ▸ less

theorem Tracked.makeEdit {w : World n} (tracked : Tracked w) (op : DocOp Byte) :
    Tracked { w with es := w.es.makeEdit op, phase := .submit } := by
  have committed := tracked.committed
  refine ⟨⟨committed.versioned, committed.present, committed.ascending⟩, tracked.queued.makeEdit op,
    tracked.lower, tracked.keys, tracked.ops, tracked.settled, ?_, ?_⟩
  · -- the edit is applied behind the pending operations
    have inFlight : ({ w with es := w.es.makeEdit op, phase := .submit } : World n).inFlight =
        w.inFlight ++ [op] := by
      have frozen : ({ w with es := w.es.makeEdit op, phase := .submit } : World n).frozen =
          w.frozen := rfl
      rw [World.inFlight, frozen, World.inFlight]
      cases pending : w.es.pending with
      | nil =>
          have notStored : w.frozen = none := by
            cases found : w.cellAt w.cid (w.es.peerNextSeq w.cid) with
            | none => rw [World.frozen, found]; rfl
            | some cell =>
                obtain ⟨first, rest, somePending⟩ := tracked.exists_pending found
                rw [pending] at somePending
                contradiction
          rw [notStored]
          simp [EditorState.makeEdit, pending]
      | cons first rest =>
          cases w.frozen with
          | none => simp [EditorState.makeEdit, pending]
          | some stored => simp [EditorState.makeEdit, pending]
    rw [inFlight, applyAll_append]
    exact congrArg (applyOp · op) tracked.text
  · intro best nonePending
    cases nonePending

theorem Tracked.step {w v : World n} {action : Action n} (tracked : Tracked w)
    (small : n ≤ uint64Size) (own : ∀ peer again op serial, action ≠ .peerPut peer again op serial)
    (inOrder : w.InOrder action) (inRange : w.InRange action) (merges : w.Merges action)
    (stepped : w.step action = some v) : Tracked v := by
  cases steps_of_step stepped with
  | get peer best inRound isPeer =>
      refine tracked.setPhase _ fun picked picks => tracked.chosen_of_get ?_ picks
      rintro old rfl
      exact tracked.chosen old (by rw [inRound]; rfl)
  | timeout peer best inRound =>
      exact tracked.setPhase _ fun picked picks => tracked.chosen picked (inRound ▸ picks)
  | roundWithout => exact tracked.setPhase w.serial (by simp [Phase.best?])
  | roundWith best picked =>
      exact tracked.integrated small (tracked.chosen best picked) (inOrder best picked)
        (merges best picked)
  | noEdit => exact tracked.setPhase w.serial (by simp [Phase.best?])
  | edit op => exact tracked.makeEdit op
  | submit op rest seq pending isSeq =>
      have isOp : op ∈ w.es.pending.head? := by rw [pending]; rfl
      obtain ⟨first, ordered⟩ := tracked.queued.head_seq isSeq
      have put : Tracked (w.executePut w.cid seq op (w.serial + serialStep)) :=
        tracked.executePut small ordered (fun _ => ⟨first, rest, pending⟩)
          (inRange.1 op isOp) (inRange.2 seq isSeq) (merges op isOp seq isSeq) _
      exact put.setPhase _ (by simp [Phase.best?])
  | noSubmit => exact tracked.setPhase w.serial (by simp [Phase.best?])
  | wake => exact tracked.setPhase w.serial (by simp [Phase.best?])
  | peerPut peer again op serial => exact absurd rfl (own peer again op serial)

/-- An editor without pending operations that has integrated every operation. -/
theorem Tracked.localText_eq {w : World n} (tracked : Tracked w) (noPending : w.es.pending = [])
    (all : ∀ op ∈ readOps w.db w.docId, op.clientSeq < w.nextOf op.clientId) :
    w.es.localText = reconstruct (readOps w.db w.docId) := by
  have inFlight : w.inFlight = [] := by
    rw [World.inFlight, noPending]
    cases w.frozen <;> rfl
  have integrated : w.integratedOps = readOps w.db w.docId :=
    List.filter_eq_self.mpr fun op member => decide_eq_true (all op member)
  rw [tracked.text, inFlight, base, integrated]
  rfl

end World

end DoomDraft.Collab
