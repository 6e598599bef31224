import DoomDraft.Document.State

/-!
# Replaying a document

A database reached by puts, some of which store operations under operation
keys.  With pairwise distinct operation keys `read_ops` returns the operations
of a document in the order in which they were put.  A put at a key that is
already taken moves its operation to the end.
-/

namespace DoomDraft.Document

open Pancy

/-- A put that stores an operation, with numbers of 64 bits. -/
structure OpPut where
  serial : Nat
  docId : ByteString
  clientId : Nat
  clientSeq : Nat
  op : DocOp Byte
  idFits : clientId < uint64Size
  seqFits : clientSeq < uint64Size
  opFits : op.Fits

namespace OpPut

/-- The key of the operation. -/
def key (put : OpPut) : ByteString :=
  opKey put.docId put.clientId put.clientSeq

/-- The request that stores the operation. -/
def request (put : OpPut) : PutRequest :=
  { serial := put.serial, key := put.key, value := serialize put.op }

/-- The operation as `read_ops` returns it. -/
def committed (put : OpPut) (version : Int) : CommittedOp :=
  ⟨version, put.clientId, put.clientSeq, put.op, []⟩

/-- The document, client and sequence number that identify the operation. -/
def triple (put : OpPut) : ByteString × Nat × Nat :=
  (put.docId, put.clientId, put.clientSeq)

end OpPut

/-- A put of an operation, or a put at a key that is no operation key. -/
inductive StoredPut where
  | op (put : OpPut)
  | other (req : PutRequest) (notOp : ¬ IsOpKey req.key)

/-- The request of a put. -/
def StoredPut.request : StoredPut → PutRequest
  | .op put => put.request
  | .other req _ => req

/-- The database after puts on the empty database. -/
def runPuts (puts : List StoredPut) : PancyDb :=
  puts.foldl (fun db put => (db.processPut put.request).1) PancyDb.empty

/-- The operations that puts store, in order. -/
def opPuts (puts : List StoredPut) : List OpPut :=
  puts.filterMap fun
    | .op put => some put
    | .other _ _ => none

/-- The operations that puts store for a document, in order. -/
def opsOf (puts : List StoredPut) (docId : ByteString) : List OpPut :=
  (opPuts puts).filter fun put => put.docId = docId

theorem runPuts_append (puts : List StoredPut) (put : StoredPut) :
    runPuts (puts ++ [put]) = ((runPuts puts).processPut put.request).1 := by
  simp [runPuts, List.foldl_append]

theorem wellVersioned_runPuts (puts : List StoredPut) : (runPuts puts).WellVersioned := by
  induction puts using List.reverseRecOn with
  | nil => exact PancyDb.wellVersioned_empty
  | append_singleton puts put ih =>
      rw [runPuts_append]
      exact ih.processPut put.request

/-! ## Operation keys -/

namespace OpPut

theorem key_eq (put : OpPut) : put.key =
    docOpPrefix put.docId ++ decimal put.clientId ++ byte '/' :: decimal put.clientSeq :=
  opKey_eq ..

theorem isOpKey (put : OpPut) : IsOpKey put.key :=
  ⟨_, _, _, isNumeral_decimal _, isNumeral_decimal _, put.key_eq⟩

theorem triple_eq_of_key_eq {put other : OpPut} (same : put.key = other.key) :
    put.triple = other.triple := by
  obtain ⟨docEq, idEq, seqEq⟩ := opKey_injective same
  rw [triple, triple, docEq, idEq, seqEq]

/-- Another document does not read the key of an operation. -/
theorem readCell_eq_none (put : OpPut) {docId : ByteString} (different : put.docId ≠ docId)
    (cell : Vv) : readCell docId put.key cell = none := by
  cases read : readCell docId put.key cell with
  | none => rfl
  | some c =>
      obtain ⟨x, y, xNumeral, yNumeral, keyEq, -⟩ := readCell_eq_some read
      rw [put.key_eq] at keyEq
      obtain ⟨docEq, -⟩ := docOpPrefix_append_inj (slash_notMem_decimal _)
        (slash_notMem_decimal _) xNumeral.slash_notMem yNumeral.slash_notMem keyEq
      exact absurd docEq different

/-- The cell of an operation is read by its own document only. -/
theorem readCell_key (put : OpPut) (docId : ByteString) {version : Int}
    (stored : version ≠ nonexistentVersion) :
    readCell docId put.key ⟨serialize put.op, version⟩ =
      if put.docId = docId then some (put.committed version) else none := by
  split
  · rename_i same
    subst same
    exact readCell_opKey put.idFits put.seqFits put.opFits stored
  · rename_i different
    exact put.readCell_eq_none different _

end OpPut

theorem readCell_of_not_isOpKey {docId key : ByteString} {cell : Vv} (notOp : ¬ IsOpKey key) :
    readCell docId key cell = none := by
  cases read : readCell docId key cell with
  | none => rfl
  | some c =>
      obtain ⟨x, y, xNumeral, yNumeral, keyEq, -⟩ := readCell_eq_some read
      exact absurd ⟨docId, x, y, xNumeral, yNumeral, keyEq⟩ notOp

/-! ## The effect of one write -/

/-- A write moves the operation of its key, if there is one, to the end. -/
theorem readOps_write {db : PancyDb} (versioned : db.WellVersioned) (docId key value : ByteString) :
    readOps (db.write key value) docId =
      (readOps db docId).filter (fun c => c.version ≠ (db.cell key).version) ++
        (readCell docId key ⟨value, db.nextVersion⟩).toList := by
  have below : ∀ c ∈ readOps db docId, c.version < db.nextVersion := by
    intro c member
    obtain ⟨other, cell, found, read⟩ := mem_readOps.mp member
    rw [readCell_version read]
    exact (versioned.bounds other cell found).2
  apply (keySorted_readOps (versioned.write key value) docId).eq_of_mem_iff
  · refine List.pairwise_append.mpr ⟨(keySorted_readOps versioned docId).filter _, ?_, ?_⟩
    · cases readCell docId key ⟨value, db.nextVersion⟩ <;> simp
    · intro c member last isLast
      rw [readCell_version (Option.mem_toList.mp isLast)]
      exact below c (List.mem_filter.mp member).1
  · intro c
    rw [List.mem_append, List.mem_filter, Option.mem_toList, mem_readOps, mem_readOps]
    constructor
    · rintro ⟨other, cell, found, read⟩
      rw [PancyDb.find?_write] at found
      split at found
      · rename_i atKey
        subst atKey
        obtain rfl := Option.some.inj found
        exact Or.inr read
      · rename_i different
        refine Or.inl ⟨⟨other, cell, found, read⟩, decide_eq_true ?_⟩
        intro same
        rw [readCell_version read, PancyDb.cell, PancyDb.findVvptr] at same
        cases present : db.db.find? key with
        | none =>
            have lower := (versioned.bounds other cell found).1
            simp only [present, Option.getD_none, Option.getD_some, Vv.nonexistent,
              nonexistentVersion] at same
            omega
        | some old =>
            simp only [present, Option.getD_some] at same
            exact different (versioned.distinct other key cell old found present same)
    · rintro (⟨⟨other, cell, found, read⟩, kept⟩ | read)
      · refine ⟨other, cell, ?_, read⟩
        rw [PancyDb.find?_write, if_neg, found]
        rintro rfl
        refine of_decide_eq_true kept ?_
        rw [readCell_version read, PancyDb.cell, PancyDb.findVvptr, found]
        rfl
      · exact ⟨key, _, by rw [PancyDb.find?_write, if_pos rfl], read⟩

/-- A write at a key that the document does not read leaves its operations in
place. -/
theorem filter_readOps_eq_self {db : PancyDb} (versioned : db.WellVersioned)
    {docId key : ByteString}
    (unread : ∀ cell, db.db.find? key = some cell → readCell docId key cell = none) :
    (readOps db docId).filter (fun c => c.version ≠ (db.cell key).version) =
      readOps db docId := by
  apply List.filter_eq_self.mpr
  intro c member
  obtain ⟨other, cell, found, read⟩ := mem_readOps.mp member
  apply decide_eq_true
  intro same
  rw [readCell_version read, PancyDb.cell, PancyDb.findVvptr] at same
  cases present : db.db.find? key with
  | none =>
      have lower := (versioned.bounds other cell found).1
      simp only [present, Option.getD_none, Option.getD_some, Vv.nonexistent,
        nonexistentVersion] at same
      omega
  | some old =>
      simp only [present, Option.getD_some] at same
      obtain rfl := versioned.distinct other key cell old found present same
      rw [unread cell found] at read
      contradiction

/-! ## Distinct operation keys -/

theorem exists_put_of_find? {puts : List StoredPut} {key : ByteString} {cell : Vv}
    (found : (runPuts puts).db.find? key = some cell) :
    ∃ put ∈ puts, put.request.key = key := by
  induction puts using List.reverseRecOn generalizing cell with
  | nil => simp [runPuts, PancyDb.empty, OrderedMap.find?_empty] at found
  | append_singleton puts put ih =>
      rw [runPuts_append] at found
      rcases (wellVersioned_runPuts puts).processPut_cases put.request with same | written
      · rw [same] at found
        obtain ⟨earlier, member, keyEq⟩ := ih found
        exact ⟨earlier, List.mem_append_left _ member, keyEq⟩
      · rw [written, PancyDb.find?_write] at found
        split at found
        · rename_i atKey
          exact ⟨put, List.mem_append_right _ List.mem_cons_self, atKey.symm⟩
        · obtain ⟨earlier, member, keyEq⟩ := ih found
          exact ⟨earlier, List.mem_append_left _ member, keyEq⟩

/-- A new triple has an empty cell. -/
theorem find?_key_eq_none {puts : List StoredPut} {put : OpPut}
    (fresh : ∀ earlier ∈ opPuts puts, earlier.triple ≠ put.triple) :
    (runPuts puts).db.find? put.key = none := by
  cases found : (runPuts puts).db.find? put.key with
  | none => rfl
  | some cell =>
      obtain ⟨earlier, member, keyEq⟩ := exists_put_of_find? found
      cases earlier with
      | op earlier =>
          refine absurd (OpPut.triple_eq_of_key_eq keyEq) (fresh earlier ?_)
          exact List.mem_filterMap.mpr ⟨.op earlier, member, rfl⟩
      | other req notOp =>
          refine absurd ?_ notOp
          rw [show req.key = put.key from keyEq]
          exact put.isOpKey

/-- What identifies an operation and what it does, without its version. -/
def CommittedOp.content (c : CommittedOp) : Nat × Nat × DocOp Byte :=
  (c.clientId, c.clientSeq, c.op)

theorem readOps_runPuts_append {puts : List StoredPut} {put : StoredPut} (docId : ByteString)
    (fresh : ∀ last, put = .op last → ∀ earlier ∈ opPuts puts, earlier.triple ≠ last.triple) :
    (readOps (runPuts (puts ++ [put])) docId).map CommittedOp.content =
      (readOps (runPuts puts) docId).map CommittedOp.content ++
        (opsOf [put] docId).map fun last => (last.clientId, last.clientSeq, last.op) := by
  have versioned := wellVersioned_runPuts puts
  rw [runPuts_append]
  cases put with
  | op last =>
      have absent := find?_key_eq_none (fresh last rfl)
      have stored : (runPuts puts).nextVersion ≠ nonexistentVersion := versioned.positive.ne'
      have kept := @filter_readOps_eq_self _ versioned docId last.key fun cell found => by
        rw [absent] at found
        contradiction
      rw [StoredPut.request, OpPut.request, versioned.processPut_any, readOps_write versioned, kept,
        last.readCell_key docId stored, List.map_append]
      by_cases same : last.docId = docId
      · simp [opsOf, opPuts, same, OpPut.committed, CommittedOp.content]
      · simp [opsOf, opPuts, same]
  | other req notOp =>
      have unread : ∀ cell, readCell docId req.key cell = none := fun cell =>
        readCell_of_not_isOpKey notOp
      simp only [opsOf, opPuts, List.filterMap_cons_none, List.filterMap_nil, List.filter_nil,
        List.map_nil, List.append_nil]
      rcases versioned.processPut_cases req with same | written
      · rw [StoredPut.request, same]
      · rw [StoredPut.request, written, readOps_write versioned,
          filter_readOps_eq_self versioned fun cell _ => unread cell, unread]
        simp

/-- With pairwise distinct triples `read_ops` returns exactly the operations of
the document, in the order in which they were put, and `reconstruct` applies
them in that order. -/
theorem readOps_runPuts (puts : List StoredPut)
    (distinct : (opPuts puts).Pairwise fun first second => first.triple ≠ second.triple)
    (docId : ByteString) :
    (readOps (runPuts puts) docId).map (fun c => (c.clientId, c.clientSeq, c.op)) =
        (opsOf puts docId).map (fun put => (put.clientId, put.clientSeq, put.op)) ∧
      reconstruct (readOps (runPuts puts) docId) =
        ((opsOf puts docId).map OpPut.op).foldl applyOp [] := by
  have contents : (readOps (runPuts puts) docId).map CommittedOp.content =
      (opsOf puts docId).map fun put => (put.clientId, put.clientSeq, put.op) := by
    induction puts using List.reverseRecOn with
    | nil => rfl
    | append_singleton puts put ih =>
        have split : opPuts (puts ++ [put]) = opPuts puts ++ opPuts [put] :=
          List.filterMap_append
        rw [split] at distinct
        obtain ⟨earlier, -, across⟩ := List.pairwise_append.mp distinct
        rw [readOps_runPuts_append, ih earlier, ← List.map_append, opsOf, opsOf, opsOf, split,
          List.filter_append]
        rintro last rfl first member
        exact across first member last (by simp [opPuts])
  refine ⟨contents, ?_⟩
  have ops := congrArg (List.map fun content => content.2.2) contents
  rw [List.map_map, List.map_map] at ops
  rw [reconstruct_eq, applyAll]
  exact congrArg (List.foldl applyOp []) ops

/-- The key of the list of documents. -/
def registryKey : ByteString :=
  ascii ['d', 'o', 'c', 's', '/', 'r', 'e', 'g', 'i', 's', 't', 'r', 'y']

theorem registry_not_isOpKey : ¬ IsOpKey registryKey := by
  rintro ⟨docId, x, y, -, -, same⟩
  have start := congrArg (List.take 4) same
  simp only [registryKey, docOpPrefix, ascii, List.map_cons, List.map_nil, List.cons_append,
    List.nil_append, List.take_succ_cons, List.take_zero] at start
  revert start
  decide

/-- Operations of two documents, the id of one containing the operation prefix
of the other, around a put of the registry. -/
def mixedPuts : List StoredPut :=
  [.op ⟨0, ascii ['a'], 1, 1, .insert 0 (ascii [' ', '7']), by decide, by decide, by decide⟩,
    .other { serial := 1, key := registryKey, value := [] } registry_not_isOpKey,
    .op ⟨2, ascii ['a', '/', 'o', 'p', '/', '1'], 1, 1, .insert 0 (ascii ['x']), by decide,
      by decide, by decide⟩,
    .op ⟨3, ascii ['a'], 1, 2, .delete 0 1, by decide, by decide, by decide⟩]

theorem readOps_mixedPuts :
    (readOps (runPuts mixedPuts) (ascii ['a'])).map (fun c => (c.clientId, c.clientSeq, c.op)) =
        (opsOf mixedPuts (ascii ['a'])).map (fun put => (put.clientId, put.clientSeq, put.op)) ∧
      reconstruct (readOps (runPuts mixedPuts) (ascii ['a'])) =
        ((opsOf mixedPuts (ascii ['a'])).map OpPut.op).foldl applyOp [] :=
  readOps_runPuts mixedPuts (by decide) (ascii ['a'])

/-! ## Resubmission -/

/-- The database after the operation of `put` is put once more. -/
def resubmit (db : PancyDb) (serial : Nat) (put : OpPut) : PancyDb :=
  (db.processPut { serial := serial, key := put.key, value := serialize put.op }).1

/-- The operations of the document that were committed before `version`. -/
def opsBefore (db : PancyDb) (docId : ByteString) (version : Int) : List CommittedOp :=
  (readOps db docId).filter fun c => c.version < version

/-- The operations of the document that were committed after `version`. -/
def opsAfter (db : PancyDb) (docId : ByteString) (version : Int) : List CommittedOp :=
  (readOps db docId).filter fun c => version < c.version

theorem readOps_eq_around {db : PancyDb} (versioned : db.WellVersioned) {put : OpPut}
    {version : Int} (stored : db.db.find? put.key = some ⟨serialize put.op, version⟩) :
    readOps db put.docId = opsBefore db put.docId version ++
      put.committed version :: opsAfter db put.docId version := by
  have read : readCell put.docId put.key ⟨serialize put.op, version⟩ =
      some (put.committed version) := by
    rw [put.readCell_key put.docId (versioned.bounds _ _ stored).1.ne', if_pos rfl]
  exact (keySorted_readOps versioned put.docId).eq_append_of_mem
    (mem_readOps.mpr ⟨_, _, stored, read⟩)

/-- Resubmission moves the operation behind all later ones. -/
theorem readOps_resubmit {db : PancyDb} (versioned : db.WellVersioned) {put : OpPut}
    {version : Int} (stored : db.db.find? put.key = some ⟨serialize put.op, version⟩)
    (serial : Nat) :
    readOps (resubmit db serial put) put.docId = opsBefore db put.docId version ++
      opsAfter db put.docId version ++ [put.committed db.nextVersion] := by
  have cellEq : (db.cell put.key).version = version := by
    rw [PancyDb.cell, PancyDb.findVvptr, stored]
    rfl
  rw [resubmit, versioned.processPut_any, readOps_write versioned, cellEq,
    put.readCell_key put.docId versioned.positive.ne', if_pos rfl, Option.toList_some]
  congr 1
  rw [readOps_eq_around versioned stored, List.filter_append, List.filter_cons]
  have earlier : (opsBefore db put.docId version).filter (fun c => c.version ≠ version) =
      opsBefore db put.docId version := by
    apply List.filter_eq_self.mpr
    intro c member
    have less : c.version < version := of_decide_eq_true (List.mem_filter.mp member).2
    exact decide_eq_true less.ne
  have later : (opsAfter db put.docId version).filter (fun c => c.version ≠ version) =
      opsAfter db put.docId version := by
    apply List.filter_eq_self.mpr
    intro c member
    have less : version < c.version := of_decide_eq_true (List.mem_filter.mp member).2
    exact decide_eq_true less.ne'
  rw [earlier, later]
  simp [OpPut.committed]

/-- Resubmitting a stored operation leaves the text unchanged exactly when the
operation commutes with the operations of the document committed after it, on
the text that the operations committed before it produce. -/
theorem resubmission_iff (puts : List StoredPut) (put : OpPut) (serial : Nat) {version : Int}
    (stored : (runPuts puts).db.find? put.key = some ⟨serialize put.op, version⟩) :
    reconstruct (readOps (resubmit (runPuts puts) serial put) put.docId) =
        reconstruct (readOps (runPuts puts) put.docId) ↔
      applyOp (applyAll (reconstruct (opsBefore (runPuts puts) put.docId version))
          ((opsAfter (runPuts puts) put.docId version).map CommittedOp.op)) put.op =
        applyAll (applyOp (reconstruct (opsBefore (runPuts puts) put.docId version)) put.op)
          ((opsAfter (runPuts puts) put.docId version).map CommittedOp.op) := by
  have versioned := wellVersioned_runPuts puts
  rw [readOps_resubmit versioned stored, readOps_eq_around versioned stored]
  simp only [reconstruct_eq, List.map_append, List.map_cons, List.map_nil, applyAll,
    List.foldl_append, List.foldl_cons, List.foldl_nil, OpPut.committed]

/-- Client 1 inserts `A` at the start of document `d`. -/
def insertA : OpPut :=
  ⟨0, ascii ['d'], 1, 1, .insert 0 (ascii ['A']), by decide, by decide, by decide⟩

/-- Client 2 inserts `B` at the start of document `d`. -/
def insertB : OpPut :=
  ⟨1, ascii ['d'], 2, 1, .insert 0 (ascii ['B']), by decide, by decide, by decide⟩

/-- Client 3 inserts `C` behind the first letter of document `d`. -/
def insertC : OpPut :=
  ⟨2, ascii ['d'], 3, 1, .insert 1 (ascii ['C']), by decide, by decide, by decide⟩

/-- An operation that commutes with a later one is resubmitted. -/
theorem resubmission_iff_insertC :
    (opsAfter (runPuts [.op insertA, .op insertC]) (ascii ['d']) 1).map CommittedOp.op =
        [insertC.op] ∧
      reconstruct (readOps (resubmit (runPuts [.op insertA, .op insertC]) 2 insertA)
          (ascii ['d'])) =
        reconstruct (readOps (runPuts [.op insertA, .op insertC]) (ascii ['d'])) := by
  have stored : (runPuts [.op insertA, .op insertC]).db.find? insertA.key =
      some ⟨serialize insertA.op, 1⟩ := by
    decide +kernel
  have commute : applyOp
        (applyAll (reconstruct (opsBefore (runPuts [.op insertA, .op insertC]) insertA.docId 1))
          ((opsAfter (runPuts [.op insertA, .op insertC]) insertA.docId 1).map CommittedOp.op))
        insertA.op =
      applyAll
        (applyOp (reconstruct (opsBefore (runPuts [.op insertA, .op insertC]) insertA.docId 1))
          insertA.op)
        ((opsAfter (runPuts [.op insertA, .op insertC]) insertA.docId 1).map CommittedOp.op) := by
    decide +kernel
  exact ⟨by decide +kernel, (resubmission_iff _ insertA 2 stored).mpr commute⟩

/-- Resubmitting the insertion of `A` after the insertion of `B` turns `BA` into
`AB`. -/
theorem resubmission_changes_text :
    (runPuts [.op insertA, .op insertB]).db.find? insertA.key =
        some ⟨serialize insertA.op, 1⟩ ∧
      reconstruct (readOps (runPuts [.op insertA, .op insertB]) (ascii ['d'])) =
        ascii ['B', 'A'] ∧
      reconstruct (readOps (resubmit (runPuts [.op insertA, .op insertB]) 2 insertA)
        (ascii ['d'])) = ascii ['A', 'B'] ∧
      reconstruct (readOps (resubmit (runPuts [.op insertA, .op insertB]) 2 insertA)
        (ascii ['d'])) ≠ reconstruct (readOps (runPuts [.op insertA, .op insertB])
          (ascii ['d'])) := by
  decide +kernel

end DoomDraft.Document
