import DoomDraft.Foundation.Decimal
import DoomDraft.Foundation.MergeWalk
import DoomDraft.Pancy.Discipline

/-!
# Comparing two databases

`diff` walks two databases together and reports a key at which they differ by
more than the younger one may be ahead.  Where one of them lacks a key, the cell
that it has removed lately stands in for the missing one.
-/

namespace DoomDraft.Pancy.PancyDb

/-- `find_recent_remove`. -/
def findRecentRemove (self : PancyDb) (key : ByteString) (minVersion : Int) : Option Vv :=
  (self.recentRemoves.find? fun rr => rr.key = key ∧ minVersion ≤ rr.removeVersion).map
    RecentRemove.cell

/-- `min_version` in `diff`: the difference of a signed and an unsigned number
is taken modulo 2^64 and becomes signed again. -/
def minVersion (self : PancyDb) (versionSkew : Nat) : Int :=
  (self.nextVersion - versionSkew).bmod uint64Size

/-- `a_removes_complete` in `diff`. -/
def removesComplete (self : PancyDb) (minVersion : Int) : Bool :=
  self.recentRemoves.length < maxRecentRemoves ||
    self.recentRemoves.getLast?.any fun rr => rr.removeVersion ≤ minVersion

/-- Whether the loop of `diff` reports a key, given the cells that `*this` and
`db` have there. -/
def differsAt (self db : PancyDb) (minVersion : Int) (key : ByteString) (a b : Option Vv) : Bool :=
  match a.or (self.findRecentRemove key minVersion), b.or (db.findRecentRemove key minVersion) with
  -- missing from `db`, but maybe added within the skew
  | some avv, none => avv.version < minVersion
  -- missing from `*this`, but maybe its removal has been evicted
  | none, _ => self.removesComplete minVersion
  | some avv, some bvv =>
      avv.version < bvv.version ∨ (bvv.version < avv.version ∧ avv.version < minVersion) ∨
        (avv.version = bvv.version ∧ avv.value ≠ bvv.value)

/-- `diff` on a database that is not newer. -/
def diffOlder (self db : PancyDb) (versionSkew : Nat) : Option ByteString :=
  self.db.walk (self.differsAt db (self.minVersion versionSkew)) db.db

/-- `diff`. -/
def diff (self db : PancyDb) (versionSkew : Nat) : Option ByteString :=
  if self.nextVersion < db.nextVersion then db.diffOlder self versionSkew
  else self.diffOlder db versionSkew

/-- The next version is one of the 64-bit signed type. -/
def VersionFits (self : PancyDb) : Prop :=
  self.nextVersion < 2 ^ 63

/-! ## The window -/

/-- A skew that does not wrap. -/
theorem minVersion_eq {self : PancyDb} (fits : self.VersionFits) {versionSkew : Nat}
    (within : (versionSkew : Int) ≤ 2 ^ 63 + self.nextVersion) :
    self.minVersion versionSkew = self.nextVersion - versionSkew := by
  rw [VersionFits] at fits
  rw [minVersion, uint64Size]
  apply Int.bmod_eq_of_le <;> omega

/-- A skew that wraps puts the window behind all versions. -/
theorem lt_minVersion {self : PancyDb} (positive : 0 < self.nextVersion)
    (fits : self.VersionFits) {versionSkew : Nat} (isSize : versionSkew < uint64Size)
    (beyond : 2 ^ 63 + self.nextVersion < (versionSkew : Int)) :
    self.nextVersion < self.minVersion versionSkew := by
  rw [VersionFits] at fits
  rw [uint64Size] at isSize
  have wraps : self.minVersion versionSkew = self.nextVersion - versionSkew + 2 ^ 64 := by
    rw [minVersion, uint64Size, ← Int.add_bmod_right]
    apply Int.bmod_eq_of_le <;> omega
  omega

/-! ## Recent removes -/

/-- The recent removes are in order, the newest first. -/
structure RemovesOrdered (db : PancyDb) : Prop where
  sorted : db.recentRemoves.Pairwise fun newer older => older.removeVersion < newer.removeVersion
  bounds : ∀ rr ∈ db.recentRemoves,
    rr.removeVersion < db.nextVersion ∧ rr.cell.version < rr.removeVersion

theorem removesOrdered_empty : RemovesOrdered empty where
  sorted := List.Pairwise.nil
  bounds rr member := by
    contradiction

theorem RemovesOrdered.write {db : PancyDb} (ordered : RemovesOrdered db)
    (key value : ByteString) : RemovesOrdered (db.write key value) where
  sorted := ordered.sorted
  bounds rr member := by
    obtain ⟨below, cell⟩ := ordered.bounds rr member
    exact ⟨below.trans (Int.lt_succ _), cell⟩

theorem RemovesOrdered.doRemove {db : PancyDb} (ordered : RemovesOrdered db)
    (versioned : WellVersioned db) {key : ByteString} {vv : Vv}
    (found : db.db.find? key = some vv) : RemovesOrdered (db.doRemove key vv) where
  sorted := by
    apply List.Pairwise.sublist (List.take_sublist _ _)
    exact List.pairwise_cons.mpr ⟨fun rr member => (ordered.bounds rr member).1, ordered.sorted⟩
  bounds rr member := by
    have next : (db.doRemove key vv).nextVersion = db.nextVersion + 1 := rfl
    rcases List.mem_cons.mp (List.mem_of_mem_take member) with rfl | older
    · exact ⟨Int.lt_succ _, (versioned.bounds key vv found).2⟩
    · obtain ⟨below, cell⟩ := ordered.bounds rr older
      exact ⟨by omega, cell⟩

theorem RemovesOrdered.processReq {db : PancyDb} (ordered : RemovesOrdered db)
    (versioned : WellVersioned db) (req : Request) : RemovesOrdered (db.processReq req).1 := by
  have processed := versioned.processed req
  generalize db.processReq req = outcome at processed
  cases processed with
  | unchanged resp reads old => exact ordered
  | written value resp mod writes ok versions version previous => exact ordered.write _ _
  | removed vv resp found ok versions => exact ordered.doRemove versioned found

theorem RemovesOrdered.processReqs {db : PancyDb} (ordered : RemovesOrdered db)
    (versioned : WellVersioned db) (reqs : List Request) :
    RemovesOrdered (db.processReqs reqs) := by
  induction reqs generalizing db with
  | nil => exact ordered
  | cons req rest ih => exact ih (ordered.processReq versioned req) (versioned.processReq req)

/-- No removal is as young as the next version. -/
theorem RemovesOrdered.findRecentRemove_eq_none {db : PancyDb} (ordered : RemovesOrdered db)
    {minVersion : Int} (late : db.nextVersion ≤ minVersion) (key : ByteString) :
    db.findRecentRemove key minVersion = none := by
  rw [findRecentRemove, Option.map_eq_none_iff, List.find?_eq_none]
  intro rr member
  have below := (ordered.bounds rr member).1
  simp only [decide_eq_true_eq, not_and]
  omega

theorem RemovesOrdered.removesComplete_of_le {db : PancyDb} (ordered : RemovesOrdered db)
    {minVersion : Int} (late : db.nextVersion ≤ minVersion) :
    db.removesComplete minVersion = true := by
  rw [removesComplete, Bool.or_eq_true, decide_eq_true_eq]
  rcases Nat.lt_or_ge db.recentRemoves.length maxRecentRemoves with short | full
  · exact Or.inl short
  · right
    cases last : db.recentRemoves.getLast? with
    | none =>
        rw [List.getLast?_eq_none_iff.mp last] at full
        contradiction
    | some rr =>
        have below := (ordered.bounds rr (List.mem_of_getLast? last)).1
        simp only [Option.any_some, decide_eq_true_eq]
        omega

/-! ## An empty window -/

/-- Outside the window, a key is reported where the cells differ. -/
theorem differsAt_eq_false_iff {self db : PancyDb} (selfVersioned : WellVersioned self)
    (selfOrdered : RemovesOrdered self) (dbOrdered : RemovesOrdered db)
    (older : db.nextVersion ≤ self.nextVersion) {minVersion : Int}
    (late : self.nextVersion ≤ minVersion) {key : ByteString} {b : Option Vv}
    (present : self.db.find? key ≠ none ∨ b ≠ none) :
    self.differsAt db minVersion key (self.db.find? key) b = false ↔ self.db.find? key = b := by
  have noRemove := selfOrdered.findRecentRemove_eq_none late key
  have noOtherRemove := dbOrdered.findRecentRemove_eq_none (older.trans late) key
  have complete := selfOrdered.removesComplete_of_le late
  rw [differsAt, noRemove, noOtherRemove, Option.or_none, Option.or_none]
  cases found : self.db.find? key with
  | none =>
      rw [found] at present
      cases b with
      | none => simp at present
      | some bvv => simp [complete]
  | some avv =>
      have upper := (selfVersioned.bounds key avv found).2
      cases b with
      | none =>
          simp only [decide_eq_false_iff_not, reduceCtorEq, iff_false, not_not]
          omega
      | some bvv =>
          simp only [decide_eq_false_iff_not, Option.some.injEq]
          constructor
          · intro same
            have versions : avv.version = bvv.version := by omega
            have values : avv.value = bvv.value := by
              by_contra different
              exact same (Or.inr (Or.inr ⟨versions, different⟩))
            cases avv
            cases bvv
            exact congrArg₂ Vv.mk values versions
          · rintro rfl
            simp

/-- With an empty window, `diff` finds nothing exactly when the maps are equal. -/
theorem diffOlder_eq_none_iff {self db : PancyDb} (selfVersioned : WellVersioned self)
    (selfOrdered : RemovesOrdered self) (dbOrdered : RemovesOrdered db)
    (older : db.nextVersion ≤ self.nextVersion) {versionSkew : Nat}
    (late : self.nextVersion ≤ self.minVersion versionSkew) :
    self.diffOlder db versionSkew = none ↔ self.db = db.db := by
  rw [diffOlder, OrderedMap.walk_eq_none_iff]
  constructor
  · intro same
    apply OrderedMap.ext_find?
    intro key
    by_cases present : self.db.find? key ≠ none ∨ db.db.find? key ≠ none
    · exact (differsAt_eq_false_iff selfVersioned selfOrdered dbOrdered older late present).mp
        (same key present)
    · rw [not_or, not_not, not_not] at present
      exact present.1.trans present.2.symm
  · intro same key present
    rw [differsAt_eq_false_iff selfVersioned selfOrdered dbOrdered older late present, same]

/-- The same in either order. -/
theorem diff_eq_none_iff {self db : PancyDb} (selfVersioned : WellVersioned self)
    (dbVersioned : WellVersioned db) (selfOrdered : RemovesOrdered self)
    (dbOrdered : RemovesOrdered db) {versionSkew : Nat}
    (late : self.nextVersion ≤ self.minVersion versionSkew)
    (dbLate : db.nextVersion ≤ db.minVersion versionSkew) :
    self.diff db versionSkew = none ↔ self.db = db.db := by
  rw [diff]
  split
  · rename_i newer
    rw [diffOlder_eq_none_iff dbVersioned dbOrdered selfOrdered newer.le dbLate]
    exact eq_comm
  · rename_i notNewer
    exact diffOlder_eq_none_iff selfVersioned selfOrdered dbOrdered (not_lt.mp notNewer) late

end DoomDraft.Pancy.PancyDb
