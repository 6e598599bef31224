import DoomDraft.Document.Replay
import DoomDraft.Foundation.Transition
import DoomDraft.Server.Cache

/-!
# Labels in the operation cache

The stream sends an operation under the label of its client, and under the hash
of the client where the operation has no label; a browser knows its own
operations by the label.  A client's label is registered before its operation is
put, and the cache gives it to the operations that it reads from the database,
except where it rebuilds itself.
-/

namespace DoomDraft.Server

open Document Pancy

/-- A call on a `per_doc_cache`. -/
inductive CacheCall where
  | noteClientLabel (cidHash : Nat) (label : ByteString)
  | noteCommitted (c : CommittedOp)
  | refreshOpsFromDb (db : PancyDb) (docId : ByteString)

/-- A cache with the labels that have been passed to `note_client_label`. -/
structure CacheUse where
  cache : PerDocCache
  announced : List (Nat × ByteString)

/-- The client has a registered label. -/
def PerDocCache.knows (cache : PerDocCache) (cidHash : Nat) : Bool :=
  (cache.clientLabels.find? cidHash).isSome

/-- The client and the sequence number by which an operation is known. -/
def identity (c : CommittedOp) : Nat ×ₗ Nat :=
  toLex (c.clientId, c.clientSeq)

/-- Every cached operation of a client with a registered label has a label. -/
def PerDocCache.Labelled (cache : PerDocCache) : Prop :=
  ∀ o ∈ cache.ops, cache.knows o.clientId = true → o.clientIdLabel ≠ []

/-- A rebuild from `fresh` finds a label for every operation of a client with a
registered label: the operation is in the cache already, and it is the only one
with its client and sequence number. -/
def PerDocCache.Recovers (cache : PerDocCache) (fresh : List CommittedOp) : Prop :=
  (∀ o ∈ fresh, cache.knows o.clientId = true → ∃ c ∈ cache.ops, identity c = identity o) ∧
    fresh.Pairwise fun e o => cache.knows o.clientId = true → identity e ≠ identity o

instance (cache : PerDocCache) : Decidable cache.Labelled :=
  inferInstanceAs (Decidable (∀ o ∈ cache.ops, _))

instance (cache : PerDocCache) (fresh : List CommittedOp) : Decidable (cache.Recovers fresh) :=
  inferInstanceAs (Decidable (_ ∧ _))

namespace CacheUse

/-- No call has been made. -/
def start : CacheUse where
  cache := PerDocCache.empty
  announced := []

/-- One call; a commit is noted with a label that has been announced for its
client. -/
def step (w : CacheUse) : CacheCall → Option CacheUse
  | .noteClientLabel cidHash label =>
      some ⟨w.cache.noteClientLabel cidHash label, (cidHash, label) :: w.announced⟩
  | .noteCommitted c =>
      if (c.clientId, c.clientIdLabel) ∈ w.announced then
        some { w with cache := w.cache.noteCommitted c }
      else none
  | .refreshOpsFromDb db docId => some { w with cache := w.cache.refreshOpsFromDb db docId }

/-- Make calls in order. -/
def perform (w : CacheUse) (calls : List CacheCall) : Option CacheUse :=
  Transition.perform step w calls

/-- The call does not leave an operation without the label of its client: a
refresh that rebuilds the cache recovers the labels, and a commit that is
appended without a label is of a client that has none. -/
def keepsLabels (w : CacheUse) : CacheCall → Prop
  | .noteClientLabel _ _ => True
  | .noteCommitted c => c.clientIdLabel = [] → PerDocCache.upgradeLabel c w.cache.ops = none →
      w.cache.version < c.version → w.cache.knows c.clientId = false
  | .refreshOpsFromDb db docId => readOps db docId ≠ [] →
      PerDocCache.appendOnly w.cache.ops (readOps db docId) = false →
      w.cache.Recovers (readOps db docId)

instance (w : CacheUse) : ∀ call, Decidable (w.keepsLabels call)
  | .noteClientLabel _ _ => isTrue trivial
  | .noteCommitted _ => inferInstanceAs (Decidable (_ → _ → _ → _))
  | .refreshOpsFromDb _ _ => inferInstanceAs (Decidable (_ → _ → _))

end CacheUse

namespace PerDocCache

/-! ## Labels that a rebuild recovers -/

theorem find?_foldl_emplace (ops : List CommittedOp)
    (saved : OrderedMap (Nat ×ₗ Nat) ByteString) (id : Nat ×ₗ Nat) :
    (ops.foldl (fun saved o =>
      if o.clientIdLabel = [] then saved
      else saved.emplace (toLex (o.clientId, o.clientSeq)) o.clientIdLabel) saved).find? id =
      (saved.find? id).or
        ((ops.find? fun o => identity o = id ∧ o.clientIdLabel ≠ []).map
          CommittedOp.clientIdLabel) := by
  induction ops generalizing saved with
  | nil => simp
  | cons o ops ih =>
      rw [List.foldl_cons, ih, List.find?_cons]
      by_cases unlabelled : o.clientIdLabel = []
      · simp [unlabelled]
      · rw [if_neg unlabelled, OrderedMap.find?_emplace]
        by_cases same : identity o = id
        · have idEq : id = toLex (o.clientId, o.clientSeq) := same.symm
          rw [if_pos idEq, ← idEq]
          simp only [same, unlabelled, ne_eq, not_false_eq_true, and_self, decide_true]
          cases saved.find? id <;> rfl
        · have idNe : ¬ id = toLex (o.clientId, o.clientSeq) := fun eq => same eq.symm
          rw [if_neg idNe]
          simp [same]

/-- A label is saved for the operations that are cached with a label. -/
theorem find?_savedLabels_isSome (ops : List CommittedOp) (id : Nat ×ₗ Nat) :
    (∃ label, (savedLabels ops).find? id = some label ∧ label ≠ []) ↔
      ∃ c ∈ ops, identity c = id ∧ c.clientIdLabel ≠ [] := by
  rw [savedLabels, find?_foldl_emplace, OrderedMap.find?_empty, Option.none_or]
  constructor
  · rintro ⟨label, found, -⟩
    obtain ⟨c, first, -⟩ := Option.map_eq_some_iff.mp found
    have holds := List.find?_some first
    exact ⟨c, List.mem_of_find?_eq_some first, of_decide_eq_true holds⟩
  · rintro ⟨c, member, holds⟩
    cases first : ops.find? fun o => identity o = id ∧ o.clientIdLabel ≠ [] with
    | none =>
        have noEarlier := List.find?_eq_none.mp first c member
        simp [holds] at noEarlier
    | some d =>
        have holds := List.find?_some first
        exact ⟨d.clientIdLabel, rfl, (of_decide_eq_true holds).2⟩

/-- What the rebuild labels: the operations with a saved label that do not come
after another one of the same client and sequence number. -/
theorem forall_restoreLabels_iff {known : Nat → Bool} {ops : List CommittedOp}
    (unlabelled : ∀ o ∈ ops, o.clientIdLabel = [])
    (saved : OrderedMap (Nat ×ₗ Nat) ByteString) :
    (∀ o ∈ restoreLabels saved ops, known o.clientId = true → o.clientIdLabel ≠ []) ↔
      (∀ o ∈ ops, known o.clientId = true →
        ∃ label, saved.find? (identity o) = some label ∧ label ≠ []) ∧
      ops.Pairwise fun e o => known o.clientId = true → identity e ≠ identity o := by
  induction ops generalizing saved with
  | nil => simp [restoreLabels]
  | cons o ops ih =>
      rw [List.forall_mem_cons] at unlabelled
      rw [restoreLabels, List.forall_mem_cons, List.pairwise_cons]
      cases found : saved.find? (toLex (o.clientId, o.clientSeq)) with
      | none =>
          rw [List.forall_mem_cons, ih unlabelled.2]
          constructor
          · rintro ⟨first, recovered, distinct⟩
            have unknown : known o.clientId = true → False := fun known => first known unlabelled.1
            refine ⟨⟨fun known => (unknown known).elim, recovered⟩, ?_, distinct⟩
            intro x member known same
            obtain ⟨label, labelFound, -⟩ := recovered x member known
            rw [← same, identity, found] at labelFound
            contradiction
          · rintro ⟨⟨first, recovered⟩, -, distinct⟩
            refine ⟨fun known => ?_, recovered, distinct⟩
            obtain ⟨label, labelFound, -⟩ := first known
            rw [identity, found] at labelFound
            contradiction
      | some label =>
          have moved : ∀ x, (∃ l, (saved.insert (toLex (o.clientId, o.clientSeq)) []).find?
              (identity x) = some l ∧ l ≠ []) ↔
                identity o ≠ identity x ∧ ∃ l, saved.find? (identity x) = some l ∧ l ≠ [] := by
            intro x
            rw [OrderedMap.find?_insert]
            by_cases same : identity x = toLex (o.clientId, o.clientSeq)
            · rw [if_pos same]
              simp [identity, same.symm]
            · rw [if_neg same]
              exact ⟨fun kept => ⟨fun eq => same eq.symm, kept⟩, And.right⟩
          have own : (∃ l, saved.find? (identity o) = some l ∧ l ≠ []) ↔ label ≠ [] := by
            rw [identity, found]
            simp
          rw [List.forall_mem_cons, ih unlabelled.2, own]
          simp only [moved]
          constructor
          · rintro ⟨first, recovered, distinct⟩
            exact ⟨⟨first, fun x member known => (recovered x member known).2⟩,
              fun x member known => (recovered x member known).1, distinct⟩
          · rintro ⟨⟨first, recovered⟩, apart, distinct⟩
            exact ⟨first, fun x member known => ⟨apart x member known, recovered x member known⟩,
              distinct⟩

/-- What a refresh that rebuilds does to the labels. -/
theorem Labelled.rebuild_iff {cache : PerDocCache} (labelled : cache.Labelled)
    {fresh : List CommittedOp} (unlabelled : ∀ o ∈ fresh, o.clientIdLabel = []) :
    (∀ o ∈ restoreLabels (savedLabels cache.ops) fresh,
      cache.knows o.clientId = true → o.clientIdLabel ≠ []) ↔ cache.Recovers fresh := by
  rw [forall_restoreLabels_iff unlabelled, Recovers]
  refine and_congr_left fun _ => forall_congr' fun o => forall_congr' fun _ =>
    forall_congr' fun known => ?_
  rw [find?_savedLabels_isSome]
  constructor
  · rintro ⟨c, member, same, -⟩
    exact ⟨c, member, same⟩
  · rintro ⟨c, member, same⟩
    have clientEq : c.clientId = o.clientId := congrArg (fun id => (ofLex id).1) same
    exact ⟨c, member, same, labelled c member (clientEq ▸ known)⟩

/-! ## One call -/

theorem knows_insert (labels : OrderedMap Nat ByteString) (cidHash other : Nat)
    (label : ByteString) : ((labels.insert cidHash label).find? other).isSome =
      (decide (other = cidHash) || (labels.find? other).isSome) := by
  rw [OrderedMap.find?_insert]
  split
  · simp_all
  · simp_all

theorem Labelled.noteClientLabel {cache : PerDocCache} (labelled : cache.Labelled) (cidHash : Nat)
    (label : ByteString) : (cache.noteClientLabel cidHash label).Labelled := by
  unfold PerDocCache.noteClientLabel
  split
  · exact labelled
  · rename_i given
    intro o member known
    obtain ⟨old, oldMember, rfl⟩ := List.mem_map.mp member
    split
    · exact given
    · rename_i other
      rw [if_neg other] at known
      by_cases own : old.clientId = cidHash
      · exact fun empty => other ⟨own, empty⟩
      · refine labelled old oldMember ?_
        simpa [knows, knows_insert, own] using known

/-- Upgrading a label replaces an empty label by the label of the commit. -/
theorem mem_of_upgradeLabel {c o : CommittedOp} {ops upgraded : List CommittedOp}
    (found : upgradeLabel c ops = some upgraded) (member : o ∈ upgraded) :
    ∃ old ∈ ops, o.clientId = old.clientId ∧
      (o.clientIdLabel = old.clientIdLabel ∨ c.clientIdLabel ≠ [] ∧
        o.clientIdLabel = c.clientIdLabel) := by
  induction ops generalizing upgraded with
  | nil => contradiction
  | cons first ops ih =>
      rw [upgradeLabel] at found
      split at found
      · obtain rfl := Option.some.inj found
        rcases List.mem_cons.mp member with rfl | rest
        · refine ⟨first, List.mem_cons_self, ?_⟩
          split
          · rename_i empty
            exact ⟨rfl, Or.inr ⟨empty.2, rfl⟩⟩
          · exact ⟨rfl, Or.inl rfl⟩
        · exact ⟨o, List.mem_cons_of_mem first rest, rfl, Or.inl rfl⟩
      · obtain ⟨rest, restFound, rfl⟩ := Option.map_eq_some_iff.mp found
        rcases List.mem_cons.mp member with rfl | later
        · exact ⟨o, List.mem_cons_self, rfl, Or.inl rfl⟩
        · obtain ⟨old, oldMember, facts⟩ := ih restFound later
          exact ⟨old, List.mem_cons_of_mem first oldMember, facts⟩

theorem clientLabels_noteCommitted (cache : PerDocCache) (c : CommittedOp) :
    (cache.noteCommitted c).clientLabels =
      if c.clientIdLabel = [] then cache.clientLabels
      else cache.clientLabels.insert c.clientId c.clientIdLabel := by
  unfold PerDocCache.noteCommitted
  split_ifs with empty
  · dsimp only
    split
    · rfl
    · split <;> rfl
  · dsimp only
    split
    · rfl
    · split <;> rfl

theorem ops_noteCommitted (cache : PerDocCache) (c : CommittedOp) :
    (cache.noteCommitted c).ops =
      (upgradeLabel c cache.ops).getD
        (if cache.version < c.version then cache.ops ++ [c] else cache.ops) := by
  unfold PerDocCache.noteCommitted
  split_ifs with empty newer newer
  all_goals
    dsimp only
    cases upgradeLabel c cache.ops with
    | some upgraded => rfl
    | none => simp [newer]

/-- Noting a commit registers no new client. -/
theorem knows_noteCommitted {cache : PerDocCache} {c : CommittedOp}
    (registered : c.clientIdLabel ≠ [] → cache.knows c.clientId = true) (cidHash : Nat) :
    (cache.noteCommitted c).knows cidHash = cache.knows cidHash := by
  rw [knows, clientLabels_noteCommitted]
  split
  · rfl
  · rename_i given
    rw [knows_insert]
    by_cases own : cidHash = c.clientId
    · simp [own, registered given]
    · simp [own, knows]

/-- Noting a commit of a client whose label is registered, or without a label. -/
theorem Labelled.noteCommitted_iff {cache : PerDocCache} (labelled : cache.Labelled)
    {c : CommittedOp} (registered : c.clientIdLabel ≠ [] → cache.knows c.clientId = true) :
    (cache.noteCommitted c).Labelled ↔
      (c.clientIdLabel = [] → upgradeLabel c cache.ops = none → cache.version < c.version →
        cache.knows c.clientId = false) := by
  rw [Labelled, ops_noteCommitted]
  simp only [knows_noteCommitted registered]
  cases found : upgradeLabel c cache.ops with
  | some upgraded =>
      refine ⟨fun _ _ missing => by contradiction, fun _ o member known => ?_⟩
      obtain ⟨old, oldMember, clientEq, same | given⟩ := mem_of_upgradeLabel found member
      · rw [same]
        exact labelled old oldMember (clientEq ▸ known)
      · rw [given.2]
        exact given.1
  | none =>
      rw [Option.getD_none]
      split
      · rename_i newer
        rw [List.forall_mem_append, List.forall_mem_singleton]
        constructor
        · rintro ⟨-, own⟩ empty - -
          rw [← Bool.not_eq_true]
          exact fun known => own known empty
        · intro absent
          refine ⟨labelled, fun known empty => ?_⟩
          rw [absent empty rfl newer] at known
          contradiction
      · rename_i stale
        exact ⟨fun _ _ _ newer => absurd newer stale, fun _ => labelled⟩

/-- Refreshing the cache, where the registered labels are not empty. -/
theorem Labelled.refreshOpsFromDb_iff {cache : PerDocCache} (labelled : cache.Labelled)
    (given : ∀ cidHash label, cache.clientLabels.find? cidHash = some label → label ≠ [])
    (db : PancyDb) (docId : ByteString) :
    (cache.refreshOpsFromDb db docId).Labelled ↔
      (readOps db docId ≠ [] → appendOnly cache.ops (readOps db docId) = false →
        cache.Recovers (readOps db docId)) := by
  have unlabelled : ∀ o ∈ readOps db docId, o.clientIdLabel = [] := by
    intro o member
    rw [← bare_of_mem_readOps member]
    rfl
  unfold PerDocCache.refreshOpsFromDb
  dsimp only
  split
  · rename_i nothing
    have empty := List.getLast?_eq_none_iff.mp nothing
    refine ⟨fun _ someOps => absurd empty someOps, fun _ => ?_⟩
    split
    · exact labelled
    · simp [Labelled]
  · rename_i last found
    have someOps : readOps db docId ≠ [] := by
      intro empty
      rw [empty] at found
      contradiction
    split
    · rename_i appended
      refine ⟨fun _ _ rebuilt => by rw [appended] at rebuilt; contradiction,
        fun _ o member known => ?_⟩
      rcases List.mem_append.mp member with old | new
      · exact labelled o old known
      · obtain ⟨source, -, rfl⟩ := List.mem_map.mp new
        unfold withKnownLabel at known ⊢
        cases label : cache.clientLabels.find? source.clientId with
        | none => simp [knows, label] at known
        | some label => exact given _ _ ‹_›
    · rename_i rebuilt
      rw [Bool.not_eq_true] at rebuilt
      refine Iff.trans (labelled.rebuild_iff unlabelled) ?_
      exact ⟨fun recovers _ _ => recovers, fun recovers => recovers someOps rebuilt⟩

end PerDocCache

/-! ## Every sequence of calls -/

namespace CacheUse

/-- Registered labels are not empty, and what has been announced is
registered. -/
structure Registered (w : CacheUse) : Prop where
  given : ∀ cidHash label, w.cache.clientLabels.find? cidHash = some label → label ≠ []
  known : ∀ cidHash label, (cidHash, label) ∈ w.announced → label ≠ [] →
    w.cache.knows cidHash = true

theorem registered_start : Registered start where
  given cidHash label found := by
    rw [start, PerDocCache.empty, OrderedMap.find?_empty] at found
    contradiction
  known cidHash label member := by simp [start] at member

theorem clientLabels_refreshOpsFromDb (cache : PerDocCache) (db : PancyDb) (docId : ByteString) :
    (cache.refreshOpsFromDb db docId).clientLabels = cache.clientLabels := by
  unfold PerDocCache.refreshOpsFromDb
  dsimp only
  split
  · split <;> rfl
  · split <;> rfl

theorem clientLabels_noteClientLabel (cache : PerDocCache) (cidHash : Nat) (label : ByteString) :
    (cache.noteClientLabel cidHash label).clientLabels =
      if label = [] then cache.clientLabels else cache.clientLabels.insert cidHash label := by
  unfold PerDocCache.noteClientLabel
  split <;> rfl

/-- Registering a label that is not empty. -/
theorem Registered.insert {w v : CacheUse} (registered : Registered w) {cidHash : Nat}
    {label : ByteString} (announced : ∀ pair ∈ v.announced,
      pair = (cidHash, label) ∨ pair ∈ w.announced)
    (labels : v.cache.clientLabels =
      if label = [] then w.cache.clientLabels else w.cache.clientLabels.insert cidHash label) :
    Registered v := by
  refine ⟨?_, ?_⟩
  · intro other given found
    rw [labels] at found
    split at found
    · exact registered.given other given found
    · rename_i notEmpty
      rw [OrderedMap.find?_insert] at found
      split at found
      · exact Option.some.inj found ▸ notEmpty
      · exact registered.given other given found
  · intro other given member notEmpty
    rw [PerDocCache.knows, labels]
    rcases announced _ member with own | old
    · obtain ⟨rfl, rfl⟩ := Prod.mk.inj own
      rw [if_neg notEmpty, PerDocCache.knows_insert]
      simp
    · have known := registered.known other given old notEmpty
      rw [PerDocCache.knows] at known
      split
      · exact known
      · rw [PerDocCache.knows_insert, known, Bool.or_true]

theorem Registered.step {w v : CacheUse} {call : CacheCall} (registered : Registered w)
    (stepped : w.step call = some v) : Registered v := by
  cases call with
  | noteClientLabel cidHash label =>
      obtain rfl := Option.some.inj stepped
      exact registered.insert (fun pair member => List.mem_cons.mp member)
        (clientLabels_noteClientLabel _ _ _)
  | noteCommitted c =>
      simp only [CacheUse.step] at stepped
      split at stepped
      · obtain rfl := Option.some.inj stepped
        exact registered.insert (fun pair member => Or.inr member)
          (PerDocCache.clientLabels_noteCommitted _ _)
      · contradiction
  | refreshOpsFromDb db docId =>
      obtain rfl := Option.some.inj stepped
      refine ⟨?_, ?_⟩
      · rw [clientLabels_refreshOpsFromDb]
        exact registered.given
      · simp only [PerDocCache.knows, clientLabels_refreshOpsFromDb]
        exact registered.known

/-- A call keeps the labels exactly if it is of the right kind. -/
theorem Registered.labelled_step_iff {w v : CacheUse} {call : CacheCall}
    (registered : Registered w) (labelled : w.cache.Labelled) (stepped : w.step call = some v) :
    v.cache.Labelled ↔ w.keepsLabels call := by
  cases call with
  | noteClientLabel cidHash label =>
      obtain rfl := Option.some.inj stepped
      exact ⟨fun _ => trivial, fun _ => labelled.noteClientLabel cidHash label⟩
  | noteCommitted c =>
      simp only [CacheUse.step] at stepped
      split at stepped
      · rename_i announced
        obtain rfl := Option.some.inj stepped
        exact labelled.noteCommitted_iff (registered.known _ _ announced)
      · contradiction
  | refreshOpsFromDb db docId =>
      obtain rfl := Option.some.inj stepped
      exact labelled.refreshOpsFromDb_iff registered.given db docId

/-- The label invariant, for every sequence of calls: every cached operation of
a client with a registered label has a label after each call exactly if each
call keeps the labels. -/
theorem label_invariant_iff {calls : List CacheCall} {w : CacheUse}
    (run : start.perform calls = some w) :
    (∀ t middle, start.perform (calls.take t) = some middle → middle.cache.Labelled) ↔
      Transition.Permitted CacheUse.step keepsLabels start calls := by
  refine (Transition.permitted_iff_forall_take (P := fun w => w.cache.Labelled) (J := Registered)
    ?_ ?_ registered_start ?_ run).symm
  · exact fun _ _ _ registered stepped => registered.step stepped
  · exact fun _ _ _ registered labelled stepped => registered.labelled_step_iff labelled stepped
  · simp [start, PerDocCache.empty, PerDocCache.Labelled]

/-- Client 1 inserts a second `A`. -/
def insertMore : OpPut :=
  ⟨2, ascii ['d'], 1, 2, .insert 1 (ascii ['A']), insertA.idFits, insertB.idFits, by decide⟩

/-- The handler of client 1 registers its label, the poller finds its first
operation, and the handler notes the commit. -/
def pollerFirst : List CacheCall :=
  [.noteClientLabel 1 (ascii ['c']),
    .refreshOpsFromDb (runPuts [.op insertA]) (ascii ['d']),
    .noteCommitted { insertA.committed 1 with clientIdLabel := ascii ['c'] }]

/-- The handler of client 1 notes its commit before the poller has found the
older operation of client 2, and the next operation of client 1 commits before
the poller looks. -/
def rebuiltCache : List CacheCall :=
  [.noteClientLabel 1 (ascii ['c']),
    .noteCommitted { insertA.committed 2 with clientIdLabel := ascii ['c'] },
    .refreshOpsFromDb (runPuts [.op insertB, .op insertA, .op insertMore]) (ascii ['d'])]

theorem label_invariant_pollerFirst : ∃ w, start.perform pollerFirst = some w ∧
    w.cache.ops.map CommittedOp.clientIdLabel = [ascii ['c']] ∧
    (∀ t middle, start.perform (pollerFirst.take t) = some middle → middle.cache.Labelled) := by
  have facts : (start.perform pollerFirst).any (fun w =>
      w.cache.ops.map CommittedOp.clientIdLabel = [ascii ['c']]) = true := by
    decide +kernel
  obtain ⟨w, run, labels⟩ := (Option.any_eq_true _ _).mp facts
  exact ⟨w, run, of_decide_eq_true labels, (label_invariant_iff run).mpr (by decide +kernel)⟩

/-- The second operation of client 1 comes out of the rebuild without a label. -/
theorem rebuiltCache_unlabelled : ¬ ∀ (calls : List CacheCall) (w : CacheUse),
    start.perform calls = some w → w.cache.Labelled := by
  intro always
  have facts : (start.perform rebuiltCache).any (fun w => ¬ w.cache.Labelled) = true := by
    decide +kernel
  obtain ⟨w, run, unlabelled⟩ := (Option.any_eq_true _ _).mp facts
  exact of_decide_eq_true unlabelled (always rebuiltCache w run)

end CacheUse

end DoomDraft.Server
