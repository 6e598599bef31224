import DoomDraft.Document.State
import Mathlib.Data.Prod.Lex

/-!
# The operation cache of a document

`per_doc_cache` holds the committed operations of a document twice over: the
handler of a POST notes its own commit, and a poller reads all commits from the
database.  The database knows clients by a hash only, so the cache also keeps
the labels that the clients go by.
-/

namespace DoomDraft.Server

open Document Pancy

/-- `per_doc_cache`, without the cursors. -/
structure PerDocCache where
  ops : List CommittedOp
  clientLabels : OrderedMap Nat ByteString
  text : ByteString
  version : Int
  epoch : Nat

namespace PerDocCache

/-- Nothing is cached. -/
def empty : PerDocCache where
  ops := []
  clientLabels := OrderedMap.empty
  text := []
  version := 0
  epoch := 0

/-- The operation with the label that is known for its client. -/
def withKnownLabel (labels : OrderedMap Nat ByteString) (c : CommittedOp) : CommittedOp :=
  match labels.find? c.clientId with
  | none => c
  | some label => { c with clientIdLabel := label }

/-- `append_only` in `refresh_ops_from_db`: the cached operations are the first
of the fresh ones. -/
def appendOnly : List CommittedOp → List CommittedOp → Bool
  | [], _ => true
  | _ :: _, [] => false
  | o :: ops, f :: fresh =>
      (f.version = o.version ∧ f.clientId = o.clientId ∧ f.clientSeq = o.clientSeq) &&
        appendOnly ops fresh

/-- `saved_labels` in `refresh_ops_from_db`. -/
def savedLabels (ops : List CommittedOp) : OrderedMap (Nat ×ₗ Nat) ByteString :=
  ops.foldl (fun saved o =>
    if o.clientIdLabel = [] then saved
    else saved.emplace (toLex (o.clientId, o.clientSeq)) o.clientIdLabel) OrderedMap.empty

/-- The loop that gives saved labels back; a label is moved out of the map. -/
def restoreLabels (saved : OrderedMap (Nat ×ₗ Nat) ByteString) :
    List CommittedOp → List CommittedOp
  | [] => []
  | o :: ops =>
      match saved.find? (toLex (o.clientId, o.clientSeq)) with
      | none => o :: restoreLabels saved ops
      | some label =>
          { o with clientIdLabel := label } ::
            restoreLabels (saved.insert (toLex (o.clientId, o.clientSeq)) []) ops

/-- `refresh_ops_from_db`. -/
def refreshOpsFromDb (cache : PerDocCache) (db : PancyDb) (docId : ByteString) : PerDocCache :=
  let fresh := readOps db docId
  match fresh.getLast? with
  | none =>
      if cache.ops = [] then cache
      else { cache with ops := [], text := [], version := 0, epoch := cache.epoch + 1 }
  | some last =>
      if appendOnly cache.ops fresh then
        let appended := (fresh.drop cache.ops.length).map (withKnownLabel cache.clientLabels)
        { cache with
          ops := cache.ops ++ appended
          text := applyAll cache.text (appended.map CommittedOp.op)
          version := last.version
          epoch := if last.version ≠ cache.version then cache.epoch + 1 else cache.epoch }
      else
        let ops := restoreLabels (savedLabels cache.ops) fresh
        { cache with
          ops := ops
          text := reconstruct ops
          version := last.version
          epoch := cache.epoch + 1 }

/-- The loop of `note_committed`: the label of the first operation with the same
client and sequence number is filled in; undefined when there is none. -/
def upgradeLabel (c : CommittedOp) : List CommittedOp → Option (List CommittedOp)
  | [] => none
  | o :: ops =>
      if o.clientId = c.clientId ∧ o.clientSeq = c.clientSeq then
        some ((if o.clientIdLabel = [] ∧ c.clientIdLabel ≠ [] then
          { o with clientIdLabel := c.clientIdLabel } else o) :: ops)
      else (upgradeLabel c ops).map (o :: ·)

/-- `note_committed`. -/
def noteCommitted (cache : PerDocCache) (c : CommittedOp) : PerDocCache :=
  let cache :=
    if c.clientIdLabel = [] then cache
    else { cache with clientLabels := cache.clientLabels.insert c.clientId c.clientIdLabel }
  match upgradeLabel c cache.ops with
  | some ops => { cache with ops := ops }
  | none =>
      if cache.version < c.version then
        { cache with
          ops := cache.ops ++ [c]
          text := applyOp cache.text c.op
          version := c.version
          epoch := cache.epoch + 1 }
      else cache

/-- `note_client_label`. -/
def noteClientLabel (cache : PerDocCache) (cidHash : Nat) (label : ByteString) : PerDocCache :=
  if label = [] then cache
  else
    { cache with
      clientLabels := cache.clientLabels.insert cidHash label
      ops := cache.ops.map fun o =>
        if o.clientId = cidHash ∧ o.clientIdLabel = [] then { o with clientIdLabel := label }
        else o }

/-! ## Operations without their labels -/

end PerDocCache

/-- The operation as the database has it. -/
def bare (c : CommittedOp) : CommittedOp :=
  { c with clientIdLabel := [] }

namespace PerDocCache

/-- The cached operations as the database has them. -/
def bareOps (cache : PerDocCache) : List CommittedOp :=
  cache.ops.map bare

theorem bare_withKnownLabel (labels : OrderedMap Nat ByteString) (c : CommittedOp) :
    bare (withKnownLabel labels c) = bare c := by
  rw [withKnownLabel]
  split <;> rfl

theorem map_bare_restoreLabels (saved : OrderedMap (Nat ×ₗ Nat) ByteString)
    (ops : List CommittedOp) : (restoreLabels saved ops).map bare = ops.map bare := by
  induction ops generalizing saved with
  | nil => rfl
  | cons o ops ih =>
      rw [restoreLabels]
      split
      · rw [List.map_cons, List.map_cons, ih]
      · rw [List.map_cons, List.map_cons, ih]
        rfl

theorem bareOps_noteClientLabel (cache : PerDocCache) (cidHash : Nat) (label : ByteString) :
    (cache.noteClientLabel cidHash label).bareOps = cache.bareOps := by
  rw [noteClientLabel]
  split
  · rfl
  · simp only [bareOps, List.map_map]
    apply List.map_congr_left
    intro o member
    simp only [Function.comp_apply]
    split <;> rfl

theorem version_noteClientLabel (cache : PerDocCache) (cidHash : Nat) (label : ByteString) :
    (cache.noteClientLabel cidHash label).version = cache.version := by
  rw [noteClientLabel]
  split <;> rfl

theorem map_bare_of_upgradeLabel {c : CommittedOp} {ops upgraded : List CommittedOp}
    (found : upgradeLabel c ops = some upgraded) : upgraded.map bare = ops.map bare := by
  induction ops generalizing upgraded with
  | nil => contradiction
  | cons o ops ih =>
      rw [upgradeLabel] at found
      split at found
      · obtain rfl := Option.some.inj found
        rw [List.map_cons, List.map_cons]
        split <;> rfl
      · obtain ⟨rest, restFound, rfl⟩ := Option.map_eq_some_iff.mp found
        rw [List.map_cons, List.map_cons, ih restFound]

theorem upgradeLabel_eq_none {c : CommittedOp} {ops : List CommittedOp}
    (missing : upgradeLabel c ops = none) : bare c ∉ ops.map bare := by
  induction ops with
  | nil => exact List.not_mem_nil
  | cons o ops ih =>
      rw [upgradeLabel] at missing
      split at missing
      · contradiction
      · rename_i different
        rw [List.map_cons, List.mem_cons, not_or]
        refine ⟨?_, ih (Option.map_eq_none_iff.mp missing)⟩
        intro same
        apply different
        exact ⟨(congrArg CommittedOp.clientId same).symm,
          (congrArg CommittedOp.clientSeq same).symm⟩

/-- A noted commit is appended when it is newer than the cache, and otherwise
changes no operation. -/
theorem bareOps_noteCommitted (cache : PerDocCache) (c : CommittedOp) :
    ((cache.noteCommitted c).bareOps = cache.bareOps ∧
        (cache.noteCommitted c).version = cache.version) ∨
      (cache.version < c.version ∧ bare c ∉ cache.bareOps ∧
        (cache.noteCommitted c).bareOps = cache.bareOps ++ [bare c] ∧
        (cache.noteCommitted c).version = c.version) := by
  obtain ⟨labelled, labelledEq, ops, version⟩ : ∃ labelled : PerDocCache,
      labelled = (if c.clientIdLabel = [] then cache else
        { cache with clientLabels := cache.clientLabels.insert c.clientId c.clientIdLabel }) ∧
      labelled.ops = cache.ops ∧ labelled.version = cache.version := by
    refine ⟨_, rfl, ?_, ?_⟩ <;> split <;> rfl
  rw [noteCommitted, ← labelledEq]
  cases found : upgradeLabel c labelled.ops with
  | some upgraded =>
      refine Or.inl ⟨?_, version⟩
      rw [bareOps, bareOps, ← ops]
      exact map_bare_of_upgradeLabel found
  | none =>
      have missing := upgradeLabel_eq_none found
      rw [ops] at missing
      dsimp only
      split
      · rename_i newer
        rw [version] at newer
        refine Or.inr ⟨newer, missing, ?_, rfl⟩
        simp only [bareOps, ops, List.map_append, List.map_cons, List.map_nil]
      · exact Or.inl ⟨by rw [bareOps, ops]; rfl, version⟩

/-! ## Refreshing -/

theorem bare_of_mem_readOps {db : PancyDb} {docId : ByteString} {c : CommittedOp}
    (member : c ∈ readOps db docId) : bare c = c := by
  obtain ⟨key, cell, -, read⟩ := mem_readOps.mp member
  obtain ⟨x, y, -, -, -, -, -, -, -, noLabel⟩ := readCell_eq_some read
  rw [bare, ← noLabel]

/-- Cached commits that agree with the first fresh ones in version are these. -/
theorem map_bare_eq_take {all ops fresh : List CommittedOp}
    (sorted : KeySorted CommittedOp.version all) (cached : ∀ o ∈ ops, bare o ∈ all)
    (freshMem : ∀ f ∈ fresh, f ∈ all) (append : appendOnly ops fresh = true) :
    ops.map bare = fresh.take ops.length := by
  induction ops generalizing fresh with
  | nil => rfl
  | cons o ops ih =>
      cases fresh with
      | nil => contradiction
      | cons f fresh =>
          rw [List.forall_mem_cons] at cached freshMem
          rw [appendOnly, Bool.and_eq_true, decide_eq_true_eq] at append
          have first : bare o = f := sorted.injOn cached.1 freshMem.1 append.1.1.symm
          rw [List.map_cons, first, ih cached.2 freshMem.2 append.2]
          rfl

/-- Cached commits that are the first of the fresh ones, extended by the others. -/
theorem map_bare_extend (labels : OrderedMap Nat ByteString) {ops fresh : List CommittedOp}
    (bareFresh : fresh.map bare = fresh) (taken : ops.map bare = fresh.take ops.length) :
    (ops ++ (fresh.drop ops.length).map (withKnownLabel labels)).map bare = fresh := by
  calc ((ops ++ (fresh.drop ops.length).map (withKnownLabel labels)).map bare)
      = ops.map bare ++ (fresh.drop ops.length).map bare := by
        rw [List.map_append, List.map_map]
        congr 1
        exact List.map_congr_left fun c _ => bare_withKnownLabel labels c
    _ = fresh.take ops.length ++ fresh.drop ops.length := by
        rw [taken, List.map_drop, bareFresh]
    _ = fresh := List.take_append_drop _ _

/-- A cache of commits that are in the database holds exactly those of the
database once it is refreshed. -/
theorem bareOps_refreshOpsFromDb {cache : PerDocCache} {db : PancyDb} {docId : ByteString}
    (versioned : db.WellVersioned) (cached : ∀ c ∈ cache.bareOps, c ∈ readOps db docId) :
    (cache.refreshOpsFromDb db docId).bareOps = readOps db docId ∧
      ∀ c ∈ readOps db docId, c.version ≤ (cache.refreshOpsFromDb db docId).version := by
  have sorted := keySorted_readOps versioned docId
  have bareFresh : (readOps db docId).map bare = readOps db docId :=
    (List.map_congr_left fun c member => bare_of_mem_readOps member).trans (List.map_id _)
  rw [refreshOpsFromDb]
  cases lastEq : (readOps db docId).getLast? with
  | none =>
      have nothing := List.getLast?_eq_none_iff.mp lastEq
      have noOps : cache.ops = [] := by
        rw [nothing] at cached
        exact List.map_eq_nil_iff.mp (List.eq_nil_iff_forall_not_mem.mpr fun c member =>
          absurd (cached c member) List.not_mem_nil)
      simp [nothing, bareOps, noOps]
  | some last =>
      have newest : ∀ c ∈ readOps db docId, c.version ≤ last.version :=
        fun c member => sorted.le_of_getLast? lastEq member
      dsimp only
      split
      · rename_i append
        refine ⟨?_, newest⟩
        have taken : cache.ops.map bare = (readOps db docId).take cache.ops.length :=
          map_bare_eq_take sorted (fun o member => cached _ (List.mem_map_of_mem member))
            (fun _ => id) append
        exact map_bare_extend cache.clientLabels bareFresh taken
      · refine ⟨?_, newest⟩
        rw [bareOps, map_bare_restoreLabels, bareFresh]

end PerDocCache

end DoomDraft.Server
