import DoomDraft.Lockseq.Keys
import DoomDraft.Pancy.Lookup

/-!
# Ownership of groups

Whether a client holds the lock of its group is determined by its phase and by the
first response to its current request.  A client that has sent a request but not
got the answer may be one write ahead of what it knows, so the response counts from
the time at which the request is executed.
-/

namespace DoomDraft.Lockseq

open Pancy

/-! ## The requests of a client -/

theorem processCas_free {db : PancyDb} (versioned : db.WellVersioned) {key : ByteString}
    (free : db.db.find? key = none) (serial : Nat) (value : ByteString) :
    ∃ resp, (db.processReq (.cas { serial, key, expected := [], desired := value })).2 =
        .cas resp ∧ resp.errcode = .ok ∧
      ∀ other, (db.processReq (.cas { serial, key, expected := [], desired := value })).1.db.find?
        other = if other = key then some ⟨value, resp.version⟩ else db.db.find? other := by
  have cell : db.cell key = Vv.nonexistent := by simp [PancyDb.cell, PancyDb.findVvptr, free]
  have stores : db.processCas { serial, key, expected := [], desired := value } =
      db.store serial key value (db.cell key) := by
    rw [PancyDb.processCas, if_neg]
    simp [cell, Vv.nonexistent, anyVersion]
  simp only [PancyDb.processReq, stores]
  exact ⟨_, rfl, (PancyDb.store_errcode ..).1, versioned.find?_store serial key value⟩

theorem processCas_held {db : PancyDb} {key : ByteString} {cell : Vv}
    (held : db.db.find? key = some cell) (nonempty : cell.value ≠ []) (serial : Nat)
    (value : ByteString) :
    db.processReq (.cas { serial, key, expected := [], desired := value }) =
      (db, .cas (PancyDb.modNoMatch serial cell)) := by
  have stored : db.cell key = cell := by simp [PancyDb.cell, PancyDb.findVvptr, held]
  simp only [PancyDb.processReq, PancyDb.processCas, stored]
  rw [if_pos (Or.inl nonempty.symm)]

theorem processPut_stores {db : PancyDb} (versioned : db.WellVersioned) (serial : Nat)
    (key value : ByteString) :
    ∃ resp, (db.processReq (.put { serial, key, value })).2 = .put resp ∧ resp.errcode = .ok ∧
      ∀ other, (db.processReq (.put { serial, key, value })).1.db.find? other =
        if other = key then some ⟨value, resp.version⟩ else db.db.find? other := by
  have stores : db.processPut { serial, key, value } =
      db.store serial key value (db.cell key) := by
    rw [PancyDb.processPut, if_neg]
    simp [anyVersion]
  simp only [PancyDb.processReq, stores]
  exact ⟨_, rfl, (PancyDb.store_errcode ..).1, versioned.find?_store serial key value⟩

theorem processRemove_absent {db : PancyDb} {req : RemoveRequest}
    (absent : db.db.find? req.key = none) :
    db.processReq (.remove req) =
      (db, .remove ⟨req.serial, .notFound, [], nonexistentVersion, nonexistentVersion⟩) := by
  simp only [PancyDb.processReq, PancyDb.processRemove, absent]

theorem processRemove_present {db : PancyDb} {req : RemoveRequest} {cell : Vv}
    (present : db.db.find? req.key = some cell)
    (matched : req.versionMatch < 0 ∨ req.versionMatch = cell.version) :
    ∃ resp, (db.processReq (.remove req)).2 = .remove resp ∧ resp.errcode = .ok ∧
      ∀ other, (db.processReq (.remove req)).1.db.find? other =
        if other = req.key then none else db.db.find? other := by
  have removes : db.processRemove req =
      (db.doRemove req.key cell, PancyDb.modOk req.serial cell.version Vv.nonexistent) := by
    simp only [PancyDb.processRemove, present]
    rw [if_neg]
    rintro ⟨positive, different⟩
    rcases matched with negative | same
    · omega
    · exact different same
  simp only [PancyDb.processReq, removes]
  exact ⟨_, rfl, rfl, PancyDb.find?_doRemove db req.key cell⟩

/-! ## What a client holds -/

/-- The progress of a client that holds a lock: it has written the values below
`written`, and there are no values from there to `cleared`. -/
structure Hold where
  lockVersion : Int
  written : Nat
  cleared : Nat

/-- What a client holds, given the first response to its current request. -/
def Client.hold (self : Client) (response : Option Response) : Option Hold :=
  match self.phase, response with
  | .lock, some (.cas resp) => if resp.errcode = .ok then some ⟨resp.version, 0, 0⟩ else none
  | .write n, none => some ⟨self.lockVersion, n, n⟩
  | .write n, some _ => some ⟨self.lockVersion, n + 1, n + 1⟩
  | .clear n, none => some ⟨self.lockVersion, self.nvalues, n⟩
  | .clear n, some resp =>
      if resp.errcode = .ok then some ⟨self.lockVersion, self.nvalues, n + 1⟩
      else some ⟨self.lockVersion, self.nvalues, maxSequenceLength⟩
  | .unlock, none => some ⟨self.lockVersion, self.nvalues, maxSequenceLength⟩
  | _, _ => none

/-- The values of a group are a run of `value`, a gap and the rest of an old run. -/
def Laid (db : PancyDb) (gid : Nat) (value : ByteString) (written cleared : Nat) : Prop :=
  ∃ old stop, stop ≤ maxSequenceLength ∧ old ≠ [] ∧ ∀ vid,
    (db.db.find? (makeValueKey gid vid)).map Vv.value =
      if vid < written then some value
      else if cleared ≤ vid ∧ vid < stop then some old
      else none

/-- The state of a group whose lock is held with `value`. -/
structure Held (db : PancyDb) (gid : Nat) (value : ByteString) (hold : Hold) : Prop where
  lock : db.db.find? (makeLockKey gid) = some ⟨value, hold.lockVersion⟩
  written_le : hold.written ≤ hold.cleared
  cleared_le : hold.cleared ≤ maxSequenceLength
  laid : Laid db gid value hold.written hold.cleared

/-- The state of a group whose lock is free. -/
def Free (db : PancyDb) (gid : Nat) : Prop :=
  db.db.find? (makeLockKey gid) = none ∧ ∃ value written, value ≠ [] ∧
    written ≤ maxSequenceLength ∧ Laid db gid value written maxSequenceLength

/-- The key is one of the group. -/
def IsKeyOf (gid : Nat) (key : ByteString) : Prop :=
  key = makeLockKey gid ∨ ∃ vid < maxSequenceLength, key = makeValueKey gid vid

/-- The databases agree on the keys of the group. -/
def SameGroup (gid : Nat) (db other : PancyDb) : Prop :=
  other.db.find? (makeLockKey gid) = db.db.find? (makeLockKey gid) ∧
    ∀ vid, other.db.find? (makeValueKey gid vid) = db.db.find? (makeValueKey gid vid)

theorem Laid.congr {gid : Nat} {db other : PancyDb} {value : ByteString} {written cleared : Nat}
    (same : ∀ vid, other.db.find? (makeValueKey gid vid) = db.db.find? (makeValueKey gid vid))
    (laid : Laid db gid value written cleared) : Laid other gid value written cleared := by
  obtain ⟨old, stop, stopLe, nonempty, values⟩ := laid
  exact ⟨old, stop, stopLe, nonempty, fun vid => (same vid).symm ▸ values vid⟩

theorem Held.congr {gid : Nat} {db other : PancyDb} {value : ByteString} {hold : Hold}
    (same : SameGroup gid db other) (held : Held db gid value hold) :
    Held other gid value hold :=
  ⟨same.1.trans held.lock, held.written_le, held.cleared_le, held.laid.congr same.2⟩

theorem Free.congr {gid : Nat} {db other : PancyDb} (same : SameGroup gid db other)
    (free : Free db gid) : Free other gid := by
  obtain ⟨lock, value, written, nonempty, writtenLe, laid⟩ := free
  exact ⟨same.1.trans lock, value, written, nonempty, writtenLe, laid.congr same.2⟩

/-- Where nothing is left behind the gap, the gap may end anywhere. -/
theorem Laid.anywhere {gid : Nat} {db : PancyDb} {value : ByteString} {written : Nat}
    (laid : Laid db gid value written maxSequenceLength) (cleared : Nat) :
    Laid db gid value written cleared := by
  obtain ⟨old, stop, stopLe, nonempty, values⟩ := laid
  refine ⟨old, 0, Nat.zero_le _, nonempty, fun vid => ?_⟩
  rw [values vid, if_neg (show ¬ (maxSequenceLength ≤ vid ∧ vid < stop) by omega),
    if_neg (show ¬ (cleared ≤ vid ∧ vid < 0) by omega)]

/-- A change of one key of a group leaves the other groups alone. -/
theorem sameGroup_of_change {gid other : Nat} {db next : PancyDb} {key : ByteString}
    {cell : Option Vv} (isKey : IsKeyOf gid key)
    (change : ∀ k, next.db.find? k = if k = key then cell else db.db.find? k)
    (different : other ≠ gid) : SameGroup other db next := by
  constructor
  · rw [change, if_neg]
    rintro rfl
    rcases isKey with lock | ⟨vid, -, same⟩
    · exact different (makeLockKey_injective lock)
    · exact makeLockKey_ne_makeValueKey _ _ _ same
  · intro vid
    rw [change, if_neg]
    rintro rfl
    rcases isKey with lock | ⟨otherVid, -, same⟩
    · exact makeLockKey_ne_makeValueKey _ _ _ lock.symm
    · exact different (makeValueKey_injective same).1

/-! ## Changes within a group -/

section Change

variable {gid : Nat} {db next : PancyDb} {value : ByteString} {lockVersion : Int}

/-- A request that leaves the database alone changes a key to what it was. -/
theorem find?_unchanged {key : ByteString} {cell : Option Vv} (same : next = db)
    (stored : db.db.find? key = cell) (k : ByteString) :
    next.db.find? k = if k = key then cell else db.db.find? k := by
  rw [same]
  split
  · rename_i atKey
    exact atKey ▸ stored
  · rfl

/-- With the lock taken, the run of the last owner becomes the old run. -/
theorem Free.lock (free : Free db gid)
    (change : ∀ k, next.db.find? k =
      if k = makeLockKey gid then some ⟨value, lockVersion⟩ else db.db.find? k) :
    Held next gid value ⟨lockVersion, 0, 0⟩ := by
  obtain ⟨-, old, stop, nonempty, stopLe, _, _, lastLe, -, values⟩ := free
  refine ⟨by rw [change, if_pos rfl], Nat.le_refl _, Nat.zero_le _, old, stop, stopLe, nonempty,
    fun vid => ?_⟩
  rw [change, if_neg (makeLockKey_ne_makeValueKey _ _ _).symm, values]
  simp only [Nat.not_lt_zero, if_false, Nat.zero_le, true_and]
  split
  · rfl
  · rw [if_neg (by omega)]

/-- A change of a value leaves the lock alone. -/
theorem Held.lock_of_change {hold : Hold} {n : Nat} {cell : Option Vv}
    (held : Held db gid value hold)
    (change : ∀ k, next.db.find? k =
      if k = makeValueKey gid n then cell else db.db.find? k) :
    next.db.find? (makeLockKey gid) = some ⟨value, hold.lockVersion⟩ := by
  rw [change, if_neg (makeLockKey_ne_makeValueKey _ _ _)]
  exact held.lock

/-- The next value of the run is written, over what the old run had there. -/
theorem Held.write {n : Nat} {version : Int} (held : Held db gid value ⟨lockVersion, n, n⟩)
    (inRange : n < maxSequenceLength)
    (change : ∀ k, next.db.find? k =
      if k = makeValueKey gid n then some ⟨value, version⟩ else db.db.find? k) :
    Held next gid value ⟨lockVersion, n + 1, n + 1⟩ := by
  obtain ⟨old, stop, stopLe, nonempty, values⟩ := held.laid
  refine ⟨held.lock_of_change change, Nat.le_refl _, inRange, old, stop, stopLe, nonempty,
    fun vid => ?_⟩
  rw [change]
  rcases Nat.lt_trichotomy vid n with below | rfl | above
  · rw [if_neg fun same => absurd (makeValueKey_injective same).2 below.ne, values,
      if_pos below, if_pos (Nat.lt_succ_of_lt below)]
  · rw [if_pos rfl, if_pos (Nat.lt_succ_self vid)]
    rfl
  · rw [if_neg fun same => absurd (makeValueKey_injective same).2 above.ne', values,
      if_neg (Nat.not_lt.mpr above.le), if_neg (Nat.not_lt.mpr above)]
    simp only [above.le, Nat.succ_le_of_lt above, true_and]

/-- The first value of what is left of the old run is removed. -/
theorem Held.clear {written n : Nat} (held : Held db gid value ⟨lockVersion, written, n⟩)
    (inRange : n < maxSequenceLength)
    (change : ∀ k, next.db.find? k =
      if k = makeValueKey gid n then none else db.db.find? k) :
    Held next gid value ⟨lockVersion, written, n + 1⟩ := by
  have lower : written ≤ n := held.written_le
  obtain ⟨old, stop, stopLe, nonempty, values⟩ := held.laid
  refine ⟨held.lock_of_change change, Nat.le_succ_of_le lower, inRange, old, stop, stopLe,
    nonempty, fun vid => ?_⟩
  rw [change]
  dsimp only
  split
  · rename_i same
    obtain rfl := (makeValueKey_injective same).2
    rw [if_neg (Nat.not_lt.mpr lower), if_neg (by omega)]
    rfl
  · rename_i different
    have ne : vid ≠ n := fun same => different (same ▸ rfl)
    rw [values]
    split
    · rfl
    · by_cases inOld : n ≤ vid ∧ vid < stop
      · rw [if_pos inOld, if_pos (by omega)]
      · rw [if_neg inOld, if_neg (by omega)]

/-- Where the old run would go on there is nothing, so nothing is left of it. -/
theorem Held.cleared {written n : Nat} (held : Held db gid value ⟨lockVersion, written, n⟩)
    (absent : db.db.find? (makeValueKey gid n) = none) :
    Held db gid value ⟨lockVersion, written, maxSequenceLength⟩ := by
  have lower : written ≤ n := held.written_le
  obtain ⟨old, stop, stopLe, nonempty, values⟩ := held.laid
  refine ⟨held.lock, lower.trans held.cleared_le, Nat.le_refl _, old, 0, Nat.zero_le _, nonempty,
    fun vid => ?_⟩
  have atGap := values n
  rw [absent, if_neg (Nat.not_lt.mpr lower)] at atGap
  have before : stop ≤ n := by
    by_contra long
    rw [if_pos ⟨Nat.le_refl n, Nat.lt_of_not_le long⟩] at atGap
    contradiction
  rw [values]
  dsimp only
  split
  · rfl
  · rw [if_neg (by omega), if_neg (by omega)]

/-- With the lock removed, the run stays as it is. -/
theorem Held.unlock {written : Nat}
    (held : Held db gid value ⟨lockVersion, written, maxSequenceLength⟩) (nonempty : value ≠ [])
    (change : ∀ k, next.db.find? k =
      if k = makeLockKey gid then none else db.db.find? k) : Free next gid := by
  refine ⟨by rw [change, if_pos rfl], value, written, nonempty, held.written_le,
    held.laid.congr fun vid => ?_⟩
  rw [change, if_neg (makeLockKey_ne_makeValueKey _ _ _).symm]

end Change

end DoomDraft.Lockseq
