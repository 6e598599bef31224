import DoomDraft.Foundation.OrderedMap
import DoomDraft.Pancy.Message

/-!
# The versioned key-value database

`pancydb` maps keys to versioned values.  Each successful modification takes
the next version number, and a lookup of an absent key yields the shared
sentinel cell of version 0 rather than a null pointer.
-/

namespace DoomDraft.Pancy

/-- A versioned value. -/
structure Vv where
  value : ByteString
  version : Int
  deriving DecidableEq

/-- The sentinel cell returned for absent keys. -/
def Vv.nonexistent : Vv :=
  ⟨[], nonexistentVersion⟩

/-- A removed pair with the version its removal took. -/
structure RecentRemove where
  key : ByteString
  cell : Vv
  removeVersion : Int
  deriving DecidableEq

/-- `pancydb`, a versioned key-value store that remembers its latest removals. -/
structure PancyDb where
  nextVersion : Int
  db : OrderedMap ByteString Vv
  recentRemoves : List RecentRemove
  deriving DecidableEq

namespace PancyDb

/-- `max_recent_removes`. -/
def maxRecentRemoves : Nat := 100

/-- A default-constructed database. -/
def empty : PancyDb :=
  ⟨1, OrderedMap.empty, []⟩

/-- `find_vvptr`: the cell of `key`, or a pointer to the sentinel.  The result
is a pointer, which the source compares with null in one place. -/
def findVvptr (self : PancyDb) (key : ByteString) : Option Vv :=
  some ((self.db.find? key).getD Vv.nonexistent)

/-- The cell behind `find_vvptr`. -/
def cell (self : PancyDb) (key : ByteString) : Vv :=
  (self.findVvptr key).getD Vv.nonexistent

/-- `mod_no_match`. -/
def modNoMatch (serial : Nat) (vv : Vv) : ModResponse :=
  ⟨serial, .noMatch, vv.value, vv.version, vv.version⟩

/-- `mod_ok`. -/
def modOk (serial : Nat) (previousVersion : Int) (vv : Vv) : ModResponse :=
  ⟨serial, .ok, [], previousVersion, vv.version⟩

/-- `process(get_request)`. -/
def processGet (self : PancyDb) (req : GetRequest) : GetResponse :=
  match self.findVvptr req.key with
  | none => ⟨req.serial, .notFound, [], nonexistentVersion⟩
  | some vv => ⟨req.serial, .ok, vv.value, vv.version⟩

/-- `emplace_vvptr`: insert under the next version unless the key is present,
and return the cell then stored. -/
def emplaceVvptr (self : PancyDb) (key value : ByteString) : PancyDb × Vv :=
  let db := self.db.emplace key ⟨value, self.nextVersion⟩
  ({ self with db := db }, (db.find? key).getD Vv.nonexistent)

/-- The write that ends the put and compare-exchange paths: an absent key is
emplaced, a present cell `vv` is overwritten, and a version is used up. -/
def store (self : PancyDb) (serial : Nat) (key value : ByteString) (vv : Vv) :
    PancyDb × ModResponse :=
  if vv.version = nonexistentVersion then
    let (self, stored) := self.emplaceVvptr key value
    ({ self with nextVersion := self.nextVersion + 1 }, modOk serial nonexistentVersion stored)
  else
    let stored : Vv := ⟨value, self.nextVersion⟩
    ({ self with db := self.db.insert key stored, nextVersion := self.nextVersion + 1 },
      modOk serial vv.version stored)

/-- `process(put_request)`. -/
def processPut (self : PancyDb) (req : PutRequest) : PancyDb × ModResponse :=
  let vv := self.cell req.key
  if 0 ≤ req.versionMatch ∧ req.versionMatch ≠ vv.version then
    (self, modNoMatch req.serial vv)
  else
    self.store req.serial req.key req.value vv

/-- `process(cas_request)`. -/
def processCas (self : PancyDb) (req : CasRequest) : PancyDb × ModResponse :=
  let vv := self.cell req.key
  if req.expected ≠ vv.value ∨ (0 ≤ req.versionMatch ∧ req.versionMatch ≠ vv.version) then
    (self, modNoMatch req.serial vv)
  else
    self.store req.serial req.key req.desired vv

/-- `do_remove`. -/
def doRemove (self : PancyDb) (key : ByteString) (vv : Vv) : PancyDb :=
  { nextVersion := self.nextVersion + 1
    db := self.db.erase key
    recentRemoves := (⟨key, vv, self.nextVersion⟩ :: self.recentRemoves).take maxRecentRemoves }

/-- `process(remove_request)`. -/
def processRemove (self : PancyDb) (req : RemoveRequest) : PancyDb × ModResponse :=
  match self.db.find? req.key with
  | none => (self, ⟨req.serial, .notFound, [], nonexistentVersion, nonexistentVersion⟩)
  | some vv =>
      if 0 ≤ req.versionMatch ∧ req.versionMatch ≠ vv.version then
        (self, modNoMatch req.serial vv)
      else
        (self.doRemove req.key vv, modOk req.serial vv.version Vv.nonexistent)

/-- `process_req`. -/
def processReq (self : PancyDb) : Request → PancyDb × Response
  | .get req => (self, .get (self.processGet req))
  | .put req => let (db, resp) := self.processPut req; (db, .put resp)
  | .cas req => let (db, resp) := self.processCas req; (db, .cas resp)
  | .remove req => let (db, resp) := self.processRemove req; (db, .remove resp)

@[simp]
theorem store_serial (self : PancyDb) (serial : Nat) (key value : ByteString) (vv : Vv) :
    (self.store serial key value vv).2.serial = serial := by
  unfold store
  split <;> rfl

/-- Every response echoes the serial of its request. -/
theorem processReq_serial (self : PancyDb) (req : Request) :
    (self.processReq req).2.serial = req.serial := by
  cases req with
  | get req => rfl
  | put req =>
      simp only [processReq, processPut, Response.serial, Request.serial]
      split
      · rfl
      · exact store_serial ..
  | cas req =>
      simp only [processReq, processCas, Response.serial, Request.serial]
      split
      · rfl
      · exact store_serial ..
  | remove req =>
      simp only [processReq, processRemove, Response.serial, Request.serial]
      split
      · rfl
      · split <;> rfl

/-- The database answers no request with a redirection. -/
theorem processReq_isRedirection (self : PancyDb) (req : Request) :
    (self.processReq req).2.isRedirection = false := by
  cases req <;> rfl

end PancyDb

end DoomDraft.Pancy
