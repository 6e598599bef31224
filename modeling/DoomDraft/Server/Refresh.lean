import DoomDraft.Pancy.Discipline
import DoomDraft.Server.Labels

/-!
# Refreshing the cache

A refresh rebuilds the cache only where the cached operations are not the first
of those in the database; otherwise it appends to them.  It compares versions,
clients and sequence numbers, not the operations.  As long as these determine
the operation, the outcome is the same as that of a full rebuild whatever calls
came before it.
-/

namespace DoomDraft.Server

open Document Pancy

/-- The operation that is committed at a version, by a client under a sequence
number. -/
abbrev CommitOrder := Int → Nat → Nat → DocOp Byte

/-- The operation is the one that the commit order has at its version. -/
def OpAgrees (commit : CommitOrder) (c : CommittedOp) : Prop :=
  c.op = commit c.version c.clientId c.clientSeq

/-- The columns of an operation that the database has. -/
def columns (c : CommittedOp) : Int × Nat × Nat × DocOp Byte :=
  (c.version, c.clientId, c.clientSeq, c.op)

/-- A database reached by requests whose operation keys are all built by
`op_key`. -/
def ReachedByOpKeys (db : PancyDb) : Prop :=
  ∃ reqs, db = PancyDb.empty.processReqs reqs ∧ ∀ req ∈ reqs, IsOpKey req.key →
    ∃ docId clientId clientSeq, req.key = opKey docId clientId clientSeq

/-- The cells under operation keys hold the operations of the commit order. -/
def CellsAgree (commit : CommitOrder) (db : PancyDb) : Prop :=
  ∀ docId clientId clientSeq cell op, db.db.find? (opKey docId clientId clientSeq) = some cell →
    deserialize cell.value = some op → op = commit cell.version clientId clientSeq

/-- What a call passes to the cache agrees with the commit order. -/
def CacheCall.Agrees (commit : CommitOrder) : CacheCall → Prop
  | .noteClientLabel _ _ => True
  | .noteCommitted c => OpAgrees commit c
  | .refreshOpsFromDb db _ => ReachedByOpKeys db ∧ CellsAgree commit db

namespace PerDocCache

/-- Make a call. -/
def call (cache : PerDocCache) : CacheCall → PerDocCache
  | .noteClientLabel cidHash label => cache.noteClientLabel cidHash label
  | .noteCommitted c => cache.noteCommitted c
  | .refreshOpsFromDb db docId => cache.refreshOpsFromDb db docId

/-- Make calls in order. -/
def makeCalls (cache : PerDocCache) (calls : List CacheCall) : PerDocCache :=
  calls.foldl call cache

/-- The version of the last operation, and 0 where there is none. -/
def lastVersion (ops : List CommittedOp) : Int :=
  (ops.getLast?.map CommittedOp.version).getD 0

end PerDocCache

/-! ## Operations in a database -/

theorem exists_req_of_find? {reqs : List Request} {key : ByteString} {cell : Vv}
    (found : (PancyDb.empty.processReqs reqs).db.find? key = some cell) :
    ∃ req ∈ reqs, req.key = key := by
  induction reqs using List.reverseRecOn generalizing cell with
  | nil => simp [PancyDb.processReqs, PancyDb.empty] at found
  | append_singleton reqs req ih =>
      have versioned := PancyDb.wellVersioned_empty.processReqs reqs
      rw [PancyDb.processReqs_append] at found
      change ((PancyDb.empty.processReqs reqs).processReq req).1.db.find? key = some cell at found
      have processed := versioned.processed req
      generalize (PancyDb.empty.processReqs reqs).processReq req = outcome at processed found
      have earlier : ∀ {stored}, (PancyDb.empty.processReqs reqs).db.find? key = some stored →
          ∃ other ∈ reqs ++ [req], other.key = key := by
        intro stored foundEarlier
        obtain ⟨other, member, keyEq⟩ := ih foundEarlier
        exact ⟨other, List.mem_append_left _ member, keyEq⟩
      cases processed with
      | unchanged resp reads old => exact earlier found
      | written value resp mod writes ok versions version previous =>
          rw [PancyDb.find?_write] at found
          split at found
          · rename_i atKey
            exact ⟨req, List.mem_append_right _ List.mem_cons_self, atKey.symm⟩
          · exact earlier found
      | removed vv resp stored ok versions =>
          rw [PancyDb.doRemove, OrderedMap.find?_erase] at found
          split at found
          · contradiction
          · exact earlier found

namespace ReachedByOpKeys

variable {db : PancyDb} {docId : ByteString}

theorem wellVersioned (reached : ReachedByOpKeys db) : db.WellVersioned := by
  obtain ⟨reqs, rfl, -⟩ := reached
  exact PancyDb.wellVersioned_empty.processReqs reqs

/-- An operation that is read is the cell under its operation key. -/
theorem find?_of_mem_readOps (reached : ReachedByOpKeys db) {c : CommittedOp}
    (member : c ∈ readOps db docId) :
    ∃ cell, db.db.find? (opKey docId c.clientId c.clientSeq) = some cell ∧
      c.version = cell.version ∧ deserialize cell.value = some c.op := by
  obtain ⟨key, cell, found, read⟩ := mem_readOps.mp member
  obtain ⟨x, y, xNumeral, yNumeral, keyEq, clientEq, seqEq, op, version, -⟩ :=
    readCell_eq_some read
  obtain ⟨reqs, rfl, built⟩ := reached
  obtain ⟨req, reqMem, reqKey⟩ := exists_req_of_find? found
  obtain ⟨otherDoc, clientId, clientSeq, same⟩ :=
    built req reqMem ⟨docId, x, y, xNumeral, yNumeral, reqKey.trans keyEq⟩
  rw [reqKey, keyEq, opKey_eq] at same
  obtain ⟨rfl, rfl, rfl⟩ := docOpPrefix_append_inj xNumeral.slash_notMem yNumeral.slash_notMem
    (slash_notMem_decimal _) (slash_notMem_decimal _) same
  refine ⟨cell, ?_, version, op⟩
  rw [clientEq, seqEq, decimalValue_decimal, decimalValue_decimal, opKey_eq, ← keyEq]
  exact found

theorem agrees_of_mem_readOps (reached : ReachedByOpKeys db) {commit : CommitOrder}
    (agree : CellsAgree commit db) {c : CommittedOp} (member : c ∈ readOps db docId) :
    OpAgrees commit c := by
  obtain ⟨cell, found, version, op⟩ := reached.find?_of_mem_readOps member
  rw [OpAgrees, version]
  exact agree docId c.clientId c.clientSeq cell c.op found op

/-- No two operations that are read have one identity. -/
theorem readOps_distinct (reached : ReachedByOpKeys db) (docId : ByteString) :
    (readOps db docId).Pairwise fun first second => identity first ≠ identity second := by
  have sorted := keySorted_readOps reached.wellVersioned docId
  refine sorted.imp_of_mem ?_
  intro first second firstMem secondMem less same
  obtain ⟨cell, found, version, -⟩ := reached.find?_of_mem_readOps firstMem
  obtain ⟨otherCell, otherFound, otherVersion, -⟩ := reached.find?_of_mem_readOps secondMem
  obtain ⟨clientEq, seqEq⟩ := Prod.mk.inj (toLex.injective same)
  rw [clientEq, seqEq, otherFound] at found
  obtain rfl := Option.some.inj found
  rw [version, otherVersion] at less
  exact lt_irrefl _ less

end ReachedByOpKeys

namespace PerDocCache

/-! ## What the calls do -/

theorem text_noteClientLabel (cache : PerDocCache) (cidHash : Nat) (label : ByteString) :
    (cache.noteClientLabel cidHash label).text = cache.text := by
  rw [noteClientLabel]
  split <;> rfl

theorem identity_ne_of_upgradeLabel {c : CommittedOp} {ops : List CommittedOp}
    (missing : upgradeLabel c ops = none) : ∀ o ∈ ops, identity o ≠ identity c := by
  induction ops with
  | nil => simp
  | cons o ops ih =>
      rw [upgradeLabel] at missing
      split at missing
      · contradiction
      · rename_i different
        rw [List.forall_mem_cons]
        refine ⟨?_, ih (Option.map_eq_none_iff.mp missing)⟩
        intro same
        exact different (Prod.mk.inj (toLex.injective same))

/-- A noted commit is new and appended, or it changes no operation. -/
theorem noteCommitted_cases (cache : PerDocCache) (c : CommittedOp) :
    ((cache.noteCommitted c).bareOps = cache.bareOps ∧
        (cache.noteCommitted c).version = cache.version ∧
        (cache.noteCommitted c).text = cache.text) ∨
      (cache.version < c.version ∧ (∀ o ∈ cache.ops, identity o ≠ identity c) ∧
        (cache.noteCommitted c).bareOps = cache.bareOps ++ [bare c] ∧
        (cache.noteCommitted c).version = c.version ∧
        (cache.noteCommitted c).text = applyOp cache.text c.op) := by
  obtain ⟨labelled, labelledEq, ops, version, text⟩ : ∃ labelled : PerDocCache,
      labelled = (if c.clientIdLabel = [] then cache else
        { cache with clientLabels := cache.clientLabels.insert c.clientId c.clientIdLabel }) ∧
      labelled.ops = cache.ops ∧ labelled.version = cache.version ∧
      labelled.text = cache.text := by
    refine ⟨_, rfl, ?_, ?_, ?_⟩ <;> split <;> rfl
  rw [noteCommitted, ← labelledEq]
  cases found : upgradeLabel c labelled.ops with
  | some upgraded =>
      refine Or.inl ⟨?_, version, text⟩
      rw [bareOps, bareOps, ← ops]
      exact map_bare_of_upgradeLabel found
  | none =>
      have missing := identity_ne_of_upgradeLabel found
      rw [ops] at missing
      dsimp only
      split
      · rename_i newer
        rw [version] at newer
        refine Or.inr ⟨newer, missing, ?_, rfl, by rw [text]⟩
        simp only [bareOps, ops, List.map_append, List.map_cons, List.map_nil]
      · exact Or.inl ⟨by rw [bareOps, ops]; rfl, version, text⟩

/-- Cached operations that the fast path finds at the front of the fresh ones
are these, where both agree with one commit order. -/
theorem map_bare_eq_take_of_agrees {commit : CommitOrder} {ops fresh : List CommittedOp}
    (cached : ∀ o ∈ ops, OpAgrees commit o) (read : ∀ f ∈ fresh, OpAgrees commit f ∧ bare f = f)
    (append : appendOnly ops fresh = true) : ops.map bare = fresh.take ops.length := by
  induction ops generalizing fresh with
  | nil => rfl
  | cons o ops ih =>
      cases fresh with
      | nil => contradiction
      | cons f fresh =>
          rw [List.forall_mem_cons] at cached read
          rw [appendOnly, Bool.and_eq_true, decide_eq_true_eq] at append
          obtain ⟨⟨version, client, seq⟩, rest⟩ := append
          have opEq : f.op = o.op := by
            rw [read.1.1, cached.1, version, client, seq]
          have first : bare o = f := by
            rw [← read.1.2]
            simp only [bare, version, client, seq, opEq]
          rw [List.map_cons, first, ih cached.2 read.2 rest]
          rfl

/-! ## The invariant -/

theorem reconstruct_map_bare (ops : List CommittedOp) :
    reconstruct (ops.map bare) = reconstruct ops := by
  rw [reconstruct_eq, reconstruct_eq, List.map_map]
  rfl

/-- The text and the version of the cache are those of its operations, which
are in version order, without duplicates, and agree with the commit order. -/
structure Exact (commit : CommitOrder) (cache : PerDocCache) : Prop where
  text : cache.text = reconstruct cache.bareOps
  version : cache.version = lastVersion cache.bareOps
  sorted : KeySorted CommittedOp.version cache.bareOps
  distinct : cache.bareOps.Pairwise fun first second => identity first ≠ identity second
  agrees : ∀ o ∈ cache.bareOps, OpAgrees commit o

theorem exact_empty (commit : CommitOrder) : Exact commit empty where
  text := rfl
  version := rfl
  sorted := List.Pairwise.nil
  distinct := List.Pairwise.nil
  agrees _ member := absurd member List.not_mem_nil

namespace Exact

variable {commit : CommitOrder} {cache : PerDocCache}

/-- A call that changes labels only. -/
theorem of_bareOps_eq (exactly : Exact commit cache) {next : PerDocCache}
    (ops : next.bareOps = cache.bareOps) (version : next.version = cache.version)
    (text : next.text = cache.text) : Exact commit next where
  text := by rw [text, ops, exactly.text]
  version := by rw [version, ops, exactly.version]
  sorted := by rw [ops]; exact exactly.sorted
  distinct := by rw [ops]; exact exactly.distinct
  agrees := by rw [ops]; exact exactly.agrees

theorem version_le (exactly : Exact commit cache) {o : CommittedOp} (member : o ∈ cache.bareOps) :
    o.version ≤ cache.version := by
  have isLast := List.getLast?_eq_some_getLast (List.ne_nil_of_mem member)
  rw [exactly.version, lastVersion, isLast]
  exact exactly.sorted.le_of_getLast? isLast member

theorem noteCommitted (exactly : Exact commit cache) {c : CommittedOp}
    (agrees : OpAgrees commit c) : Exact commit (cache.noteCommitted c) := by
  rcases cache.noteCommitted_cases c with ⟨ops, version, text⟩ | ⟨newer, fresh, ops, version, text⟩
  · exact exactly.of_bareOps_eq ops version text
  · refine ⟨?_, ?_, ?_, ?_, ?_⟩
    · rw [text, ops, exactly.text, reconstruct_eq, reconstruct_eq, List.map_append, applyAll_append]
      rfl
    · rw [version, ops, lastVersion, List.getLast?_concat]
      rfl
    · rw [ops]
      refine List.pairwise_append.mpr ⟨exactly.sorted, List.pairwise_singleton _ _, ?_⟩
      intro o member last isLast
      obtain rfl := List.mem_singleton.mp isLast
      exact (exactly.version_le member).trans_lt newer
    · rw [ops]
      refine List.pairwise_append.mpr ⟨exactly.distinct, List.pairwise_singleton _ _, ?_⟩
      intro o member last isLast
      obtain rfl := List.mem_singleton.mp isLast
      obtain ⟨old, oldMember, rfl⟩ := List.mem_map.mp member
      exact fresh old oldMember
    · rw [ops]
      intro o member
      rcases List.mem_append.mp member with before | last
      · exact exactly.agrees o before
      · obtain rfl := List.mem_singleton.mp last
        exact agrees

/-- Whichever path a refresh takes, it leaves the operations of the database with
their text and version. -/
theorem refreshOpsFromDb_eq (exactly : Exact commit cache) {db : PancyDb}
    (reached : ReachedByOpKeys db) (agree : CellsAgree commit db) (docId : ByteString) :
    (cache.refreshOpsFromDb db docId).bareOps = readOps db docId ∧
      (cache.refreshOpsFromDb db docId).version = lastVersion (readOps db docId) ∧
      (cache.refreshOpsFromDb db docId).text = reconstruct (readOps db docId) := by
  have bareFresh : (readOps db docId).map bare = readOps db docId :=
    (List.map_congr_left fun c member => bare_of_mem_readOps member).trans (List.map_id _)
  rw [PerDocCache.refreshOpsFromDb]
  cases lastEq : (readOps db docId).getLast? with
  | none =>
      have nothing := List.getLast?_eq_none_iff.mp lastEq
      rw [nothing]
      dsimp only
      split
      · rename_i noOps
        have bareNil : cache.bareOps = [] := by rw [bareOps, noOps, List.map_nil]
        exact ⟨bareNil, by rw [exactly.version, bareNil], by rw [exactly.text, bareNil]⟩
      · exact ⟨rfl, rfl, rfl⟩
  | some last =>
      have version : last.version = lastVersion (readOps db docId) := by
        rw [lastVersion, lastEq]
        rfl
      dsimp only
      split
      · -- the fast path: the cached operations are the first of the fresh ones
        rename_i append
        have cached : ∀ o ∈ cache.ops, OpAgrees commit o :=
          fun o member => exactly.agrees (bare o) (List.mem_map_of_mem member)
        have read : ∀ f ∈ readOps db docId, OpAgrees commit f ∧ bare f = f := fun f member =>
          ⟨reached.agrees_of_mem_readOps agree member, bare_of_mem_readOps member⟩
        have taken := map_bare_eq_take_of_agrees cached read append
        have extended := map_bare_extend cache.clientLabels bareFresh taken
        refine ⟨extended, version, ?_⟩
        rw [exactly.text, bareOps, reconstruct_map_bare]
        conv_rhs => rw [← extended, reconstruct_map_bare]
        rw [reconstruct_eq, reconstruct_eq, List.map_append, applyAll_append]
      · refine ⟨?_, version, ?_⟩
        · rw [bareOps, map_bare_restoreLabels, bareFresh]
        · rw [← reconstruct_map_bare, map_bare_restoreLabels, bareFresh]

theorem refreshOpsFromDb (exactly : Exact commit cache) {db : PancyDb}
    (reached : ReachedByOpKeys db) (agree : CellsAgree commit db) (docId : ByteString) :
    Exact commit (cache.refreshOpsFromDb db docId) := by
  obtain ⟨ops, version, text⟩ := exactly.refreshOpsFromDb_eq reached agree docId
  refine ⟨by rw [text, ops], by rw [version, ops], ?_, ?_, ?_⟩
  · rw [ops]
    exact keySorted_readOps reached.wellVersioned docId
  · rw [ops]
    exact reached.readOps_distinct docId
  · rw [ops]
    exact fun o member => reached.agrees_of_mem_readOps agree member

theorem makeCalls (exactly : Exact commit cache) {calls : List CacheCall}
    (agree : ∀ call ∈ calls, call.Agrees commit) : Exact commit (cache.makeCalls calls) := by
  induction calls generalizing cache with
  | nil => exact exactly
  | cons call rest ih =>
      rw [List.forall_mem_cons] at agree
      refine ih ?_ agree.2
      cases call with
      | noteClientLabel cidHash label =>
          exact exactly.of_bareOps_eq (cache.bareOps_noteClientLabel cidHash label)
            (cache.version_noteClientLabel cidHash label)
            (cache.text_noteClientLabel cidHash label)
      | noteCommitted c => exact exactly.noteCommitted agree.1
      | refreshOpsFromDb db docId => exact exactly.refreshOpsFromDb agree.1.1 agree.1.2 docId

end Exact

/-- Incremental refresh equals full rebuild.  After any calls that agree with one
commit order, the text is that of the cached operations, these are in version
order without duplicates, and the version is that of the last of them.  A refresh
then leaves the operations of the database, whichever path it takes. -/
theorem refresh_eq_rebuild (commit : CommitOrder) (calls : List CacheCall)
    (agree : ∀ call ∈ calls, call.Agrees commit) :
    ∃ cache, cache = empty.makeCalls calls ∧
      cache.text = reconstruct cache.ops ∧
      cache.ops.Pairwise (fun first second => first.version < second.version) ∧
      cache.ops.Pairwise (fun first second => (first.clientId, first.clientSeq) ≠
        (second.clientId, second.clientSeq)) ∧
      cache.version = lastVersion cache.ops ∧
      ∀ db, ReachedByOpKeys db → CellsAgree commit db → ∀ docId, ∃ refreshed,
        refreshed = cache.refreshOpsFromDb db docId ∧
        refreshed.ops.map columns = (readOps db docId).map columns ∧
        refreshed.text = reconstruct refreshed.ops ∧
        refreshed.version = lastVersion refreshed.ops := by
  have exactly : Exact commit (empty.makeCalls calls) := (exact_empty commit).makeCalls agree
  have unlabelled : ∀ {cache : PerDocCache}, Exact commit cache →
      cache.text = reconstruct cache.ops ∧ cache.version = lastVersion cache.ops := by
    intro cache holds
    refine ⟨by rw [holds.text, bareOps, reconstruct_map_bare], ?_⟩
    rw [holds.version, lastVersion, lastVersion, bareOps, List.getLast?_map, Option.map_map]
    rfl
  have sorted := exactly.sorted
  have distinct := exactly.distinct
  rw [KeySorted, bareOps, List.pairwise_map] at sorted
  rw [bareOps, List.pairwise_map] at distinct
  refine ⟨_, rfl, (unlabelled exactly).1, sorted, ?_, (unlabelled exactly).2, ?_⟩
  · exact distinct.imp fun different same => different (congrArg toLex same)
  · intro db reached cells docId
    have refreshed := exactly.refreshOpsFromDb reached cells docId
    refine ⟨_, rfl, ?_, (unlabelled refreshed).1, (unlabelled refreshed).2⟩
    rw [← (exactly.refreshOpsFromDb_eq reached cells docId).1, bareOps, List.map_map]
    rfl

/-- Three clients insert a letter each. -/
def lettersPut : List OpPut :=
  [insertA, insertB, insertC]

/-- The database behind some puts of operations. -/
def databaseOf (puts : List OpPut) : PancyDb :=
  PancyDb.empty.processReqs (puts.map fun put => .put put.request)

theorem reachedByOpKeys_databaseOf (puts : List OpPut) : ReachedByOpKeys (databaseOf puts) := by
  refine ⟨_, rfl, fun req member _ => ?_⟩
  obtain ⟨put, -, rfl⟩ := List.mem_map.mp member
  exact ⟨_, _, _, rfl⟩

theorem cellsAgree_of_entries {db : PancyDb} {letters : Int → DocOp Byte}
    (entries : ∀ entry ∈ db.db.entries, ∀ op ∈ deserialize entry.2.value,
      op = letters entry.2.version) :
    CellsAgree (fun version _ _ => letters version) db := by
  intro docId clientId clientSeq cell op found read
  rw [OrderedMap.find?_eq_some_iff] at found
  exact entries _ found op read

/-- The letters in the order of their versions. -/
def letters (version : Int) : DocOp Byte :=
  ((lettersPut[version.toNat - 1]?).map OpPut.op).getD (.delete 0 0)

/-- A refresh appends the first letter.  The third and the second are noted in that order,
so that the second is not taken. -/
def missedCommit : List CacheCall :=
  [.refreshOpsFromDb (databaseOf (lettersPut.take 1)) (ascii ['d']),
    .noteCommitted (insertC.committed 3), .noteCommitted (insertB.committed 2)]

/-- What the cache lacks is not behind what it has, so that the refresh rebuilds. -/
theorem refresh_eq_rebuild_missedCommit :
    (empty.makeCalls missedCommit).ops.map CommittedOp.version = [1, 3] ∧
      appendOnly (empty.makeCalls missedCommit).ops
        (readOps (databaseOf lettersPut) (ascii ['d'])) = false ∧
      ∃ refreshed, refreshed =
          (empty.makeCalls missedCommit).refreshOpsFromDb (databaseOf lettersPut) (ascii ['d']) ∧
        refreshed.ops.map columns =
          (readOps (databaseOf lettersPut) (ascii ['d'])).map columns ∧
        refreshed.text = ascii ['B', 'C', 'A'] := by
  have whole : CellsAgree (fun version _ _ => letters version) (databaseOf lettersPut) :=
    cellsAgree_of_entries (by decide +kernel)
  have one : CellsAgree (fun version _ _ => letters version) (databaseOf (lettersPut.take 1)) :=
    cellsAgree_of_entries (by decide +kernel)
  have agree : ∀ call ∈ missedCommit, call.Agrees fun version _ _ => letters version := by
    simp only [missedCommit, List.forall_mem_cons, List.not_mem_nil, false_implies, implies_true,
      and_true]
    exact ⟨⟨reachedByOpKeys_databaseOf _, one⟩, rfl, rfl⟩
  obtain ⟨_, rfl, -, -, -, -, refreshes⟩ := refresh_eq_rebuild _ missedCommit agree
  obtain ⟨_, rfl, columnsEq, -⟩ :=
    refreshes (databaseOf lettersPut) (reachedByOpKeys_databaseOf _) whole (ascii ['d'])
  exact ⟨by decide +kernel, by decide +kernel, _, rfl, columnsEq, by decide +kernel⟩

end PerDocCache

end DoomDraft.Server
