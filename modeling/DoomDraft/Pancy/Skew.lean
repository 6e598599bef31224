import DoomDraft.Pancy.Diff

/-!
# Databases that are behind

A database and what further requests make of it.  What is new in the later one
has a version of the window, and what is gone has been removed lately, unless the
removal has been evicted by as many later ones.
-/

namespace DoomDraft.Pancy.PancyDb

/-- What has become of a cell of `base` whose key is missing from `db`. -/
inductive RemovedSince (base db : PancyDb) (key : ByteString) (cell : Vv) : Prop
  /-- The last removal of the key is recorded; it took the cell itself or a newer one. -/
  | recorded (newer : List RecentRemove) (rr : RecentRemove) (older : List RecentRemove)
      (split : db.recentRemoves = newer ++ rr :: older) (last : ∀ other ∈ newer, other.key ≠ key)
      (ofKey : rr.key = key) (recent : base.nextVersion ≤ rr.removeVersion)
      (removed : rr.cell = cell ∨ base.nextVersion ≤ rr.cell.version)
  /-- All removals that are recorded are newer. -/
  | evicted (full : db.recentRemoves.length = maxRecentRemoves)
      (newer : ∀ other ∈ db.recentRemoves, other.key ≠ key ∧ base.nextVersion < other.removeVersion)

/-- `db` is what some requests have made of `base`. -/
structure Since (base db : PancyDb) : Prop where
  next_le : base.nextVersion ≤ db.nextVersion
  kept : ∀ key cell, db.db.find? key = some cell →
    base.db.find? key = some cell ∨ base.nextVersion ≤ cell.version
  removed : ∀ key cell, base.db.find? key = some cell → db.db.find? key = none →
    RemovedSince base db key cell

theorem Since.refl (db : PancyDb) : Since db db where
  next_le := le_rfl
  kept _ _ found := Or.inl found
  removed key cell found missing := by
    rw [found] at missing
    contradiction

/-! ## Writes and removals -/

theorem Since.write {base db : PancyDb} (since : Since base db) (key value : ByteString) :
    Since base (db.write key value) where
  next_le := since.next_le.trans (Int.le_of_lt (Int.lt_succ _))
  kept other cell found := by
    rw [find?_write] at found
    split at found
    · obtain rfl := Option.some.inj found
      exact Or.inr since.next_le
    · exact since.kept other cell found
  removed other cell found missing := by
    rw [find?_write] at missing
    split at missing
    · contradiction
    · cases since.removed other cell found missing with
      | recorded newer rr older split last ofKey recent removed =>
          exact .recorded newer rr older split last ofKey recent removed
      | evicted full newer => exact .evicted full newer

/-- A removal of another key moves the record of a removal back, and out when
there is no room. -/
theorem RemovedSince.push {base db : PancyDb} {key : ByteString} {cell : Vv}
    (since : RemovedSince base db key cell) (ordered : RemovesOrdered db) {removedKey : ByteString}
    (other : removedKey ≠ key) (vv : Vv) :
    RemovedSince base (db.doRemove removedKey vv) key cell := by
  cases since with
  | recorded newer rr older split last ofKey recent removed =>
      have sorted := ordered.sorted
      rw [split, List.pairwise_append] at sorted
      have rrBelow := (ordered.bounds rr (by rw [split]; simp)).1
      have pushed : ∀ another ∈ ⟨removedKey, vv, db.nextVersion⟩ :: newer,
          another.key ≠ key ∧ base.nextVersion < another.removeVersion := by
        refine List.forall_mem_cons.mpr ⟨⟨other, recent.trans_lt rrBelow⟩, fun another member => ?_⟩
        exact ⟨last another member,
          recent.trans_lt (sorted.2.2 another member rr List.mem_cons_self)⟩
      rcases Nat.lt_or_ge (newer.length + 1) maxRecentRemoves with room | noRoom
      · refine .recorded (⟨removedKey, vv, db.nextVersion⟩ :: newer) rr
          (older.take (maxRecentRemoves - (newer.length + 1) - 1)) ?_
          (fun another member => (pushed another member).1) ofKey recent removed
        rw [doRemove, split, ← List.cons_append, List.take_append, List.take_of_length_le room.le,
          List.length_cons]
        obtain ⟨left, leftEq⟩ := Nat.exists_eq_succ_of_ne_zero (Nat.sub_ne_zero_of_lt room)
        rw [leftEq]
        rfl
      · have kept : (db.doRemove removedKey vv).recentRemoves =
            (⟨removedKey, vv, db.nextVersion⟩ :: newer).take maxRecentRemoves := by
          rw [doRemove, split, ← List.cons_append, List.take_append_of_le_length noRoom]
        refine .evicted ?_ fun another member => ?_
        · rw [kept, List.length_take]
          exact Nat.min_eq_left noRoom
        · rw [kept] at member
          exact pushed another (List.mem_of_mem_take member)
  | evicted full newer =>
      refine .evicted ?_ fun another member => ?_
      · rw [doRemove, List.length_take, List.length_cons, full]
        exact Nat.min_eq_left (Nat.le_succ _)
      · rcases List.mem_cons.mp (List.mem_of_mem_take member) with rfl | old
        · obtain ⟨first, firstMem⟩ := List.exists_mem_of_length_pos
            (l := db.recentRemoves) (by rw [full]; decide)
          exact ⟨other, (newer first firstMem).2.trans (ordered.bounds first firstMem).1⟩
        · exact newer another old

theorem Since.doRemove {base db : PancyDb} (since : Since base db) (ordered : RemovesOrdered db)
    {key : ByteString} {vv : Vv} (found : db.db.find? key = some vv) :
    Since base (db.doRemove key vv) where
  next_le := since.next_le.trans (Int.le_of_lt (Int.lt_succ _))
  kept other cell stored := by
    rw [PancyDb.doRemove, OrderedMap.find?_erase] at stored
    split at stored
    · contradiction
    · exact since.kept other cell stored
  removed other cell stored missing := by
    by_cases same : other = key
    · subst same
      refine .recorded [] ⟨other, vv, db.nextVersion⟩ (db.recentRemoves.take (maxRecentRemoves - 1))
        rfl (by simp) rfl since.next_le ?_
      -- What is removed is the cell itself, or it has been written since.
      refine (since.kept other vv found).imp_left fun kept => ?_
      exact Option.some.inj (kept.symm.trans stored)
    · rw [PancyDb.doRemove, OrderedMap.find?_erase, if_neg same] at missing
      exact (since.removed other cell stored missing).push ordered (Ne.symm same) vv

theorem Since.processReq {base db : PancyDb} (since : Since base db) (versioned : WellVersioned db)
    (ordered : RemovesOrdered db) (req : Request) : Since base (db.processReq req).1 := by
  have processed := versioned.processed req
  generalize db.processReq req = outcome at processed
  cases processed with
  | unchanged resp reads old => exact since
  | written value resp mod writes ok versions version previous => exact since.write _ _
  | removed vv resp found ok versions => exact since.doRemove ordered found

/-- Any requests. -/
theorem Since.processReqs {base db : PancyDb} (since : Since base db) (versioned : WellVersioned db)
    (ordered : RemovesOrdered db) (reqs : List Request) : Since base (db.processReqs reqs) := by
  induction reqs generalizing db with
  | nil => exact since
  | cons req rest ih =>
      exact ih (since.processReq versioned ordered req) (versioned.processReq req)
        (ordered.processReq versioned req)

/-! ## What the comparison finds -/

/-- A removal that is found took a cell older than the next version. -/
theorem RemovesOrdered.version_lt {db : PancyDb} (ordered : RemovesOrdered db) {key : ByteString}
    {minVersion : Int} {cell : Vv} (found : db.findRecentRemove key minVersion = some cell) :
    cell.version < db.nextVersion := by
  obtain ⟨rr, isFirst, rfl⟩ := Option.map_eq_some_iff.mp found
  obtain ⟨below, cellBelow⟩ := ordered.bounds rr (List.mem_of_find?_eq_some isFirst)
  exact cellBelow.trans below

/-- The search for the removal of a missing key finds the cell that is missing or
a newer one, or the records are not complete. -/
theorem RemovedSince.findRecentRemove {base db : PancyDb} {key : ByteString} {cell : Vv}
    (since : RemovedSince base db key cell) {minVersion : Int}
    (window : minVersion ≤ base.nextVersion) :
    (∃ found, db.findRecentRemove key minVersion = some found ∧
      (found = cell ∨ base.nextVersion ≤ found.version)) ∨
    db.findRecentRemove key minVersion = none ∧ db.removesComplete minVersion = false := by
  cases since with
  | recorded newer rr older split last ofKey recent removed =>
      refine Or.inl ⟨rr.cell, ?_, removed⟩
      have passed :
          newer.find? (fun rr => rr.key = key ∧ minVersion ≤ rr.removeVersion) = none := by
        rw [List.find?_eq_none]
        intro other member
        simp [last other member]
      rw [PancyDb.findRecentRemove, split, List.find?_append, passed, Option.none_or]
      simp [ofKey, window.trans recent]
  | evicted full newer =>
      refine Or.inr ⟨?_, ?_⟩
      · rw [PancyDb.findRecentRemove, Option.map_eq_none_iff, List.find?_eq_none]
        intro other member
        simp [(newer other member).1]
      · rw [removesComplete, full, Bool.or_eq_false_iff]
        refine ⟨by decide, ?_⟩
        cases last : db.recentRemoves.getLast? with
        | none => rfl
        | some rr =>
            have late := (newer rr (List.mem_of_getLast? last)).2
            simp only [Option.any_some, decide_eq_false_iff_not]
            omega

/-- Within the window, no key is reported. -/
theorem Since.differsAt {base db : PancyDb} (since : Since base db)
    (baseVersioned : WellVersioned base) (baseOrdered : RemovesOrdered base) {minVersion : Int}
    (window : minVersion ≤ base.nextVersion) (key : ByteString)
    (present : db.db.find? key ≠ none ∨ base.db.find? key ≠ none) :
    db.differsAt base minVersion key (db.db.find? key) (base.db.find? key) = false := by
  unfold PancyDb.differsAt
  cases found : db.db.find? key with
  | none =>
      cases baseFound : base.db.find? key with
      | none =>
          rw [found, baseFound] at present
          simp at present
      | some cell =>
          have upper := (baseVersioned.bounds key cell baseFound).2
          rcases (since.removed key cell baseFound found).findRecentRemove window with
            ⟨removed, removedFound, same | newer⟩ | ⟨missing, incomplete⟩
          · subst same
            simp [removedFound]
          · simp only [removedFound, Option.none_or, Option.some_or, decide_eq_false_iff_not]
            omega
          · simp [missing, incomplete]
  | some cell =>
      have kept := since.kept key cell found
      cases baseFound : base.db.find? key with
      | none =>
          rw [baseFound] at kept
          have newer := kept.resolve_left (Option.some_ne_none cell).symm
          cases removed : base.findRecentRemove key minVersion with
          | none =>
              simp only [Option.some_or, Option.none_or, decide_eq_false_iff_not]
              omega
          | some old =>
              have oldBelow := baseOrdered.version_lt removed
              simp only [Option.some_or, Option.none_or, decide_eq_false_iff_not]
              omega
      | some baseCell =>
          have upper := (baseVersioned.bounds key baseCell baseFound).2
          simp only [Option.some_or, decide_eq_false_iff_not]
          rcases kept with same | newer
          · obtain rfl := Option.some.inj (baseFound.symm.trans same)
            simp
          · omega

theorem Since.diffOlder_eq_none {base db : PancyDb} (since : Since base db)
    (baseVersioned : WellVersioned base) (baseOrdered : RemovesOrdered base) {versionSkew : Nat}
    (window : db.minVersion versionSkew ≤ base.nextVersion) :
    db.diffOlder base versionSkew = none := by
  rw [diffOlder, OrderedMap.walk_eq_none_iff]
  exact since.differsAt baseVersioned baseOrdered window

/-! ## Exactness and the skew -/

theorem diff_self (db : PancyDb) (versionSkew : Nat) : db.diff db versionSkew = none := by
  rw [diff, if_neg (lt_irrefl _), diffOlder, OrderedMap.walk_eq_none_iff]
  intro key present
  obtain ⟨cell, found⟩ := Option.ne_none_iff_exists'.mp (present.elim id id)
  simp [PancyDb.differsAt, found]

/-- As long as no version is used up, nothing changes. -/
theorem WellVersioned.processReqs_eq_self {db : PancyDb} (versioned : WellVersioned db)
    {reqs : List Request} (same : (db.processReqs reqs).nextVersion = db.nextVersion) :
    db.processReqs reqs = db := by
  induction reqs with
  | nil => rfl
  | cons req rest ih =>
      have first := versioned.nextVersion_processReq req
      have later : (db.processReq req).1.nextVersion ≤ (db.processReqs (req :: rest)).nextVersion :=
        by
          have continued := (versioned.processReq req).nextVersion_processReqs rest
          change _ ≤ ((db.processReq req).1.processReqs rest).nextVersion
          omega
      have unchanged : (db.processReq req).1 = db := by
        by_contra changed
        rw [if_neg changed] at first
        omega
      change (db.processReq req).1.processReqs rest = db
      rw [unchanged]
      apply ih
      have same' : ((db.processReq req).1.processReqs rest).nextVersion = db.nextVersion := same
      rwa [unchanged] at same'

/-- Between a database and an earlier state of it, in either order, `diff` finds
nothing exactly when the skew does not wrap or the maps are equal. -/
theorem WellVersioned.diff_processReqs_iff {base : PancyDb} (versioned : WellVersioned base)
    (ordered : RemovesOrdered base) (later : List Request)
    (fits : (base.processReqs later).VersionFits) {versionSkew : Nat}
    (isSize : versionSkew < uint64Size)
    (within : (base.processReqs later).nextVersion - base.nextVersion ≤ versionSkew) :
    ((base.processReqs later).diff base versionSkew = none ∧
      base.diff (base.processReqs later) versionSkew = none) ↔
      (versionSkew : Int) ≤ 2 ^ 63 + (base.processReqs later).nextVersion ∨
        (base.processReqs later).db = base.db := by
  have since := (Since.refl base).processReqs versioned ordered later
  have laterVersioned := versioned.processReqs later
  have laterOrdered := ordered.processReqs versioned later
  have positive := laterVersioned.positive
  rcases since.next_le.eq_or_lt with same | newer
  · -- Without a modification in between the databases are one.
    rw [versioned.processReqs_eq_self same.symm]
    simp [diff_self]
  · have forward : (base.processReqs later).diff base versionSkew =
        (base.processReqs later).diffOlder base versionSkew := if_neg newer.asymm
    have backward : base.diff (base.processReqs later) versionSkew =
        (base.processReqs later).diffOlder base versionSkew := if_pos newer
    rw [forward, backward, and_self]
    rcases le_or_gt (versionSkew : Int) (2 ^ 63 + (base.processReqs later).nextVersion) with
      unwrapped | wraps
    · have window : (base.processReqs later).minVersion versionSkew ≤ base.nextVersion := by
        rw [minVersion_eq fits unwrapped]
        omega
      simp only [since.diffOlder_eq_none versioned ordered window, unwrapped, true_or]
    · have late := lt_minVersion positive fits isSize wraps
      rw [diffOlder_eq_none_iff laterVersioned laterOrdered ordered newer.le late.le]
      exact (or_iff_right (not_le.mpr wraps)).symm

/-- Without skew, `diff` finds nothing exactly when the maps are equal.  Between
two states of one history that the skew covers it finds nothing, in either order,
exactly when the skew does not wrap or the maps are equal. -/
theorem diff_specification_iff (reqs : List Request)
    (fits : (empty.processReqs reqs).VersionFits) :
    (∀ others : List Request, (empty.processReqs others).VersionFits →
      ((empty.processReqs reqs).diff (empty.processReqs others) 0 = none ↔
        (empty.processReqs reqs).db = (empty.processReqs others).db)) ∧
    ∀ (earlier : List Request) (versionSkew : Nat), earlier <+: reqs →
      versionSkew < uint64Size →
      (empty.processReqs reqs).nextVersion - (empty.processReqs earlier).nextVersion ≤
        versionSkew →
      (((empty.processReqs reqs).diff (empty.processReqs earlier) versionSkew = none ∧
          (empty.processReqs earlier).diff (empty.processReqs reqs) versionSkew = none) ↔
        (versionSkew : Int) ≤ 2 ^ 63 + (empty.processReqs reqs).nextVersion ∨
          (empty.processReqs reqs).db = (empty.processReqs earlier).db) := by
  have versioned := wellVersioned_empty.processReqs
  have ordered := removesOrdered_empty.processReqs wellVersioned_empty
  constructor
  · intro others othersFit
    have late : ∀ {db : PancyDb}, WellVersioned db → db.VersionFits →
        db.nextVersion ≤ db.minVersion 0 := by
      intro db dbVersioned dbFits
      have positive := dbVersioned.positive
      rw [minVersion_eq dbFits (by push_cast; omega)]
      exact (Int.sub_zero _).ge
    exact diff_eq_none_iff (versioned reqs) (versioned others) (ordered reqs) (ordered others)
      (late (versioned reqs) fits) (late (versioned others) othersFit)
  · rintro earlier versionSkew ⟨later, rfl⟩ isSize within
    rw [processReqs_append] at fits within ⊢
    exact (versioned earlier).diff_processReqs_iff (ordered earlier) later fits isSize within

/-- A key is written, removed and written again. -/
def rewritten : List Request :=
  [.put { serial := 0, key := ascii ['k'], value := ascii ['a'] },
    .remove { serial := 1, key := ascii ['k'] },
    .put { serial := 2, key := ascii ['k'], value := ascii ['b'] }]

/-- Two steps behind, with a skew of two. -/
theorem diff_specification_rewritten :
    (empty.processReqs rewritten).diff (empty.processReqs (rewritten.take 1)) 2 = none ∧
      (empty.processReqs (rewritten.take 1)).diff (empty.processReqs rewritten) 2 = none := by
  have fits : (empty.processReqs rewritten).VersionFits := by
    unfold VersionFits
    decide
  have covered := (diff_specification_iff rewritten fits).2 (rewritten.take 1) 2
    (List.take_prefix _ _) (by decide) (by decide)
  exact covered.mpr (Or.inl (by decide))

/-- The largest skew makes an alarm of one write. -/
theorem wrappedSkew_alarms :
    (empty.processReqs (rewritten.take 1)).diff (empty.processReqs []) (2 ^ 64 - 1) =
        some (ascii ['k']) ∧
      ¬ ∀ (earlier reqs : List Request) (versionSkew : Nat), earlier <+: reqs →
        versionSkew < uint64Size →
        (empty.processReqs reqs).nextVersion - (empty.processReqs earlier).nextVersion ≤
          versionSkew →
        (empty.processReqs reqs).diff (empty.processReqs earlier) versionSkew = none ∧
          (empty.processReqs earlier).diff (empty.processReqs reqs) versionSkew = none := by
  have alarm : (empty.processReqs (rewritten.take 1)).diff (empty.processReqs []) (2 ^ 64 - 1) =
      some (ascii ['k']) := by
    have entries : (empty.processReqs (rewritten.take 1)).db.entries =
        [(ascii ['k'], ⟨ascii ['a'], 1⟩)] := by decide
    have noEntries : (empty.processReqs []).db.entries = [] := rfl
    rw [diff, if_neg (by decide), diffOlder, OrderedMap.walk, entries, noEntries,
      OrderedMap.walkEntries, if_pos (by decide)]
  refine ⟨alarm, fun always => ?_⟩
  have silent := (always [] (rewritten.take 1) (2 ^ 64 - 1) (List.nil_prefix) (by decide)
    (by decide)).1
  rw [alarm] at silent
  contradiction

end DoomDraft.Pancy.PancyDb
