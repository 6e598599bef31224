import DoomDraft.Pancy.Discipline
import Mathlib.Data.List.Induction

/-!
# Lookups and the history of a key

After any requests the database stores under a key what the last successful
write to the key has stored, unless a successful remove came after it.  A lookup
returns that cell.  The branch of `process(get_request)` for an absent key is
never taken: it tests the pointer of `find_vvptr`, which points to the sentinel
cell then.
-/

namespace DoomDraft.Pancy

/-- What is known to be stored under `key` after a request has been answered: a
successful put or compare-exchange stores its value, and a successful remove
clears the key. -/
def noteExchange (key : ByteString) (last : Option Vv) (req : Request) (resp : Response) :
    Option Vv :=
  if req.key ≠ key ∨ resp.errcode ≠ .ok then last
  else
    match req, resp with
    | .put req, .put resp => some ⟨req.value, resp.version⟩
    | .cas req, .cas resp => some ⟨req.desired, resp.version⟩
    | .remove _, _ => none
    | _, _ => last

theorem noteExchange_of_errcode_ne {key : ByteString} {last : Option Vv} {req : Request}
    {resp : Response} (failed : resp.errcode ≠ .ok) : noteExchange key last req resp = last :=
  if_pos (Or.inr failed)

namespace PancyDb

/-- The last successful put or compare-exchange on `key` while `reqs` are
processed, as the value with the version that it was answered with; undefined
when there has been none since the last successful remove. -/
def lastWrite (key : ByteString) (self : PancyDb) (last : Option Vv) : List Request → Option Vv
  | [] => last
  | req :: rest =>
      lastWrite key (self.processReq req).1
        (noteExchange key last req (self.processReq req).2) rest

/-- The answer to a lookup of a key that was last written as `last` tells. -/
def Answers (resp : GetResponse) : Option Vv → Prop
  | none => resp.errcode = .notFound ∧ resp.version = nonexistentVersion
  | some cell => resp.errcode = .ok ∧ resp.value = cell.value ∧ resp.version = cell.version

/-! ## One request -/

theorem find?_doRemove (db : PancyDb) (key : ByteString) (vv : Vv) (other : ByteString) :
    (db.doRemove key vv).db.find? other = if other = key then none else db.db.find? other := by
  by_cases same : other = key <;> simp [PancyDb.doRemove, OrderedMap.find?_erase, same]

/-- A write that passes its checks stores its value under the version that it
is answered with. -/
theorem WellVersioned.find?_store {db : PancyDb} (versioned : WellVersioned db) (serial : Nat)
    (key value other : ByteString) :
    (db.store serial key value (db.cell key)).1.db.find? other =
      if other = key then
        some ⟨value, (db.store serial key value (db.cell key)).2.version⟩
      else db.db.find? other := by
  rw [versioned.store_eq, versioned.store_version, find?_write]

/-- A request leaves under each key what its answer tells. -/
theorem WellVersioned.find?_processReq {db : PancyDb} (versioned : WellVersioned db)
    (req : Request) (key : ByteString) :
    (db.processReq req).1.db.find? key =
      noteExchange key (db.db.find? key) req (db.processReq req).2 := by
  cases req with
  | get req =>
      change db.db.find? key = _
      unfold noteExchange
      split <;> rfl
  | put req =>
      have ok := (store_errcode db req.serial req.key req.value (db.cell req.key)).1
      simp only [PancyDb.processReq, PancyDb.processPut]
      split
      · exact (noteExchange_of_errcode_ne (by simp [Response.errcode, modNoMatch])).symm
      · simp only [versioned.find?_store, noteExchange, Request.key, Response.errcode, ok]
        simp [ite_not, eq_comm]
  | cas req =>
      have ok := (store_errcode db req.serial req.key req.desired (db.cell req.key)).1
      simp only [PancyDb.processReq, PancyDb.processCas]
      split
      · exact (noteExchange_of_errcode_ne (by simp [Response.errcode, modNoMatch])).symm
      · simp only [versioned.find?_store, noteExchange, Request.key, Response.errcode, ok]
        simp [ite_not, eq_comm]
  | remove req =>
      simp only [PancyDb.processReq, PancyDb.processRemove]
      split
      · exact (noteExchange_of_errcode_ne (by simp [Response.errcode])).symm
      · split
        · exact (noteExchange_of_errcode_ne (by simp [Response.errcode, modNoMatch])).symm
        · simp only [find?_doRemove, noteExchange, Request.key, Response.errcode, modOk]
          simp [ite_not, eq_comm]

/-! ## Sequences of requests -/

theorem WellVersioned.find?_processReqs {db : PancyDb} (versioned : WellVersioned db)
    (reqs : List Request) (key : ByteString) :
    (db.processReqs reqs).db.find? key = db.lastWrite key (db.db.find? key) reqs := by
  induction reqs generalizing db with
  | nil => rfl
  | cons req rest ih =>
      rw [lastWrite, ← versioned.find?_processReq]
      exact ih (versioned.processReq req)

/-- A lookup never reports an absent key. -/
theorem processGet_errcode (db : PancyDb) (req : GetRequest) :
    (db.processGet req).errcode = .ok :=
  rfl

/-- After any requests from the empty database, a lookup answers as the history
of the key tells exactly when the key has been written successfully and not been
removed since. -/
theorem get_specification_iff (reqs : List Request) (req : GetRequest) :
    Answers ((empty.processReqs reqs).processGet req) (empty.lastWrite req.key none reqs) ↔
      empty.lastWrite req.key none reqs ≠ none := by
  have stored := wellVersioned_empty.find?_processReqs reqs req.key
  rw [show empty.db.find? req.key = none from rfl] at stored
  rw [← stored]
  cases found : (empty.processReqs reqs).db.find? req.key with
  | none =>
      simp only [Answers, processGet_errcode, ne_eq, not_true_eq_false, iff_false]
      rintro ⟨missing, -⟩
      contradiction
  | some cell =>
      simp only [Answers, processGet, findVvptr, found, Option.getD_some, and_self, ne_eq,
        reduceCtorEq, not_false_eq_true]

/-- A lookup in the empty database succeeds. -/
theorem get_absent_answered_ok :
    ((empty.processReqs []).processGet ⟨0, ascii ['k']⟩).errcode = .ok ∧
      ¬ ∀ (reqs : List Request) (req : GetRequest),
        Answers ((empty.processReqs reqs).processGet req) (empty.lastWrite req.key none reqs) := by
  refine ⟨rfl, fun always => ?_⟩
  obtain ⟨missing, -⟩ : _ = Errc.notFound ∧ _ := always [] ⟨0, ascii ['k']⟩
  contradiction

end PancyDb

end DoomDraft.Pancy
