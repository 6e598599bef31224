import DoomDraft.Pancy.Database

/-!
# Versions in the database

In every database reached by requests the stored versions are positive, below
`next_version_` and pairwise distinct.  In such a database the sentinel test of
the write path tells exactly whether the key is absent, so both write paths
store the value under the next version.
-/

namespace DoomDraft.Pancy.PancyDb

/-- The stored versions are in range and pairwise distinct. -/
structure WellVersioned (db : PancyDb) : Prop where
  positive : 0 < db.nextVersion
  bounds : ∀ key cell, db.db.find? key = some cell →
    0 < cell.version ∧ cell.version < db.nextVersion
  distinct : ∀ key other cell otherCell, db.db.find? key = some cell →
    db.db.find? other = some otherCell → cell.version = otherCell.version → key = other

theorem wellVersioned_empty : WellVersioned empty where
  positive := by decide
  bounds key cell found := by
    rw [empty, OrderedMap.find?_empty] at found
    contradiction
  distinct key other cell otherCell found := by
    rw [empty, OrderedMap.find?_empty] at found
    contradiction

/-- The database with `value` at `key` under the next version. -/
def write (db : PancyDb) (key value : ByteString) : PancyDb :=
  { db with
    db := db.db.insert key ⟨value, db.nextVersion⟩
    nextVersion := db.nextVersion + 1 }

theorem find?_write (db : PancyDb) (key value other : ByteString) :
    (db.write key value).db.find? other =
      if other = key then some ⟨value, db.nextVersion⟩ else db.db.find? other := by
  by_cases same : other = key <;> simp [write, OrderedMap.find?_insert, same]

theorem WellVersioned.write {db : PancyDb} (versioned : WellVersioned db)
    (key value : ByteString) : WellVersioned (db.write key value) := by
  have next : (db.write key value).nextVersion = db.nextVersion + 1 := rfl
  have positive := versioned.positive
  refine ⟨by omega, ?_, ?_⟩
  · intro other cell found
    rw [find?_write] at found
    split at found
    · obtain rfl := Option.some.inj found
      exact ⟨positive, Int.lt_succ _⟩
    · obtain ⟨lower, upper⟩ := versioned.bounds other cell found
      exact ⟨lower, by omega⟩
  · intro first second cell otherCell found otherFound same
    rw [find?_write] at found otherFound
    split at found <;> split at otherFound
    · rename_i atKey otherAtKey
      exact atKey.trans otherAtKey.symm
    · obtain rfl := Option.some.inj found
      have upper := (versioned.bounds second otherCell otherFound).2
      simp only at same
      omega
    · obtain rfl := Option.some.inj otherFound
      have upper := (versioned.bounds first cell found).2
      simp only at same
      omega
    · exact versioned.distinct first second cell otherCell found otherFound same

theorem WellVersioned.contains_eq_false {db : PancyDb} (versioned : WellVersioned db)
    {key : ByteString} (absent : (db.cell key).version = nonexistentVersion) :
    db.db.contains key = false := by
  unfold OrderedMap.contains
  cases found : db.db.find? key with
  | none => rfl
  | some cell =>
      have lower := (versioned.bounds key cell found).1
      simp only [PancyDb.cell, findVvptr, found, Option.getD_some, nonexistentVersion] at absent
      omega

/-- Both write paths store the value under the next version. -/
theorem WellVersioned.store_eq {db : PancyDb} (versioned : WellVersioned db) (serial : Nat)
    (key value : ByteString) :
    (db.store serial key value (db.cell key)).1 = db.write key value := by
  unfold PancyDb.store
  split
  · rename_i absent
    have missing := versioned.contains_eq_false absent
    simp [emplaceVvptr, PancyDb.write, OrderedMap.emplace, missing]
  · rfl

/-- Both write paths answer with the version under which the value is stored. -/
theorem WellVersioned.store_version {db : PancyDb} (versioned : WellVersioned db) (serial : Nat)
    (key value : ByteString) :
    (db.store serial key value (db.cell key)).2.version = db.nextVersion := by
  unfold PancyDb.store
  split
  · rename_i absent
    have missing := versioned.contains_eq_false absent
    simp [emplaceVvptr, modOk, OrderedMap.emplace, missing, OrderedMap.find?_insert]
  · rfl

theorem WellVersioned.processPut_cases {db : PancyDb} (versioned : WellVersioned db)
    (req : PutRequest) :
    (db.processPut req).1 = db ∨ (db.processPut req).1 = db.write req.key req.value := by
  unfold PancyDb.processPut
  dsimp only
  split
  · exact Or.inl rfl
  · exact Or.inr (versioned.store_eq _ _ _)

/-- A put without a version to match always writes. -/
theorem WellVersioned.processPut_any {db : PancyDb} (versioned : WellVersioned db)
    (serial : Nat) (key value : ByteString) :
    (db.processPut { serial := serial, key := key, value := value }).1 = db.write key value := by
  simp [PancyDb.processPut, anyVersion, versioned.store_eq]

theorem WellVersioned.processPut_version {db : PancyDb} (versioned : WellVersioned db)
    (serial : Nat) (key value : ByteString) :
    (db.processPut { serial := serial, key := key, value := value }).2.version =
      db.nextVersion := by
  simp [PancyDb.processPut, anyVersion, versioned.store_version]

theorem WellVersioned.processPut {db : PancyDb} (versioned : WellVersioned db)
    (req : PutRequest) : WellVersioned (db.processPut req).1 := by
  rcases versioned.processPut_cases req with unchanged | written
  · rw [unchanged]
    exact versioned
  · rw [written]
    exact versioned.write req.key req.value

end DoomDraft.Pancy.PancyDb
