import DoomDraft.Pancy.Versions
import Mathlib.Data.List.Infix

/-!
# Version discipline of the database

For every sequence of requests from the empty database: versions are handed out
one after another to the requests that modify the database, a request that fails
leaves the database alone, and a write answers with a version newer than all
versions seen before and with the version that it has replaced.
-/

namespace DoomDraft.Pancy

/-- The key that a request is about. -/
def Request.key : Request → ByteString
  | .get req => req.key
  | .put req => req.key
  | .cas req => req.key
  | .remove req => req.key

/-- `errcode` of a response. -/
def Response.errcode : Response → Errc
  | .redirection resp => resp.errcode
  | .get resp => resp.errcode
  | .put resp => resp.errcode
  | .cas resp => resp.errcode
  | .remove resp => resp.errcode

/-- The versions that a response carries. -/
def Response.versions : Response → List Int
  | .redirection _ => []
  | .get resp => [resp.version]
  | .put resp => [resp.previousVersion, resp.version]
  | .cas resp => [resp.previousVersion, resp.version]
  | .remove resp => [resp.previousVersion, resp.version]

/-- The response to a write. -/
def Response.write? : Response → Option ModResponse
  | .put resp => some resp
  | .cas resp => some resp
  | _ => none

theorem Response.errcode_of_write? {resp : Response} {mod : ModResponse}
    (writes : resp.write? = some mod) : resp.errcode = mod.errcode := by
  cases resp with
  | put other =>
      cases writes
      rfl
  | cas other =>
      cases writes
      rfl
  | redirection other => contradiction
  | get other => contradiction
  | remove other => contradiction

namespace PancyDb

/-- Process requests in order. -/
def processReqs (self : PancyDb) (reqs : List Request) : PancyDb :=
  reqs.foldl (fun db req => (db.processReq req).1) self

/-- The number of requests that change the database they are processed on. -/
def modifications (self : PancyDb) : List Request → Nat
  | [] => 0
  | req :: rest =>
      (if (self.processReq req).1 = self then 0 else 1) +
        modifications (self.processReq req).1 rest

/-- The version is stored at some point while `reqs` are processed on an empty
database, or returned by the response to one of them. -/
def Seen (reqs : List Request) (version : Int) : Prop :=
  (∃ earlier key cell, earlier <+: reqs ∧ (empty.processReqs earlier).db.find? key = some cell ∧
    version = cell.version) ∨
  ∃ earlier req, earlier ++ [req] <+: reqs ∧
    version ∈ ((empty.processReqs earlier).processReq req).2.versions

/-! ## One request -/

theorem WellVersioned.doRemove {db : PancyDb} (versioned : WellVersioned db) (key : ByteString)
    (vv : Vv) : WellVersioned (db.doRemove key vv) := by
  have positive := versioned.positive
  have kept : ∀ {other cell}, (db.doRemove key vv).db.find? other = some cell →
      db.db.find? other = some cell := by
    intro other cell found
    rw [PancyDb.doRemove, OrderedMap.find?_erase] at found
    split at found
    · contradiction
    · exact found
  have next : (db.doRemove key vv).nextVersion = db.nextVersion + 1 := rfl
  refine ⟨by omega, ?_, ?_⟩
  · intro other cell found
    obtain ⟨lower, upper⟩ := versioned.bounds other cell (kept found)
    exact ⟨lower, by omega⟩
  · intro first second cell otherCell found otherFound
    exact versioned.distinct first second cell otherCell (kept found) (kept otherFound)

theorem WellVersioned.cell_version {db : PancyDb} (versioned : WellVersioned db)
    (key : ByteString) :
    (db.cell key).version = ((db.db.find? key).map Vv.version).getD nonexistentVersion ∧
      (db.cell key).version < db.nextVersion := by
  have positive := versioned.positive
  unfold PancyDb.cell findVvptr
  cases found : db.db.find? key with
  | none => exact ⟨rfl, positive⟩
  | some cell => exact ⟨rfl, (versioned.bounds key cell found).2⟩

theorem store_errcode (db : PancyDb) (serial : Nat) (key value : ByteString) (vv : Vv) :
    (db.store serial key value vv).2.errcode = .ok ∧
      (db.store serial key value vv).2.previousVersion = vv.version := by
  unfold PancyDb.store
  split
  · rename_i absent
    exact ⟨rfl, absent.symm⟩
  · exact ⟨rfl, rfl⟩

/-- What processing a request on a well-versioned database comes to. -/
inductive Processed (db : PancyDb) (req : Request) : PancyDb × Response → Prop
  /-- A lookup, or a request that fails. -/
  | unchanged (resp : Response) (reads : resp.write? = none ∨ resp.errcode = .noMatch)
      (old : ∀ version ∈ resp.versions, version < db.nextVersion) : Processed db req (db, resp)
  /-- A put or a compare-exchange that writes. -/
  | written (value : ByteString) (resp : Response) (mod : ModResponse)
      (writes : resp.write? = some mod) (ok : mod.errcode = .ok)
      (versions : resp.versions = [mod.previousVersion, mod.version])
      (version : mod.version = db.nextVersion)
      (previous : mod.previousVersion = (db.cell req.key).version) :
      Processed db req (db.write req.key value, resp)
  /-- A remove that removes. -/
  | removed (vv : Vv) (resp : ModResponse) (found : db.db.find? req.key = some vv)
      (ok : resp.errcode = .ok)
      (versions : [resp.previousVersion, resp.version] = [vv.version, 0]) :
      Processed db req (db.doRemove req.key vv, .remove resp)

theorem WellVersioned.processed_store {db : PancyDb} (versioned : WellVersioned db) (req : Request)
    (serial : Nat) (value : ByteString) {wrap : ModResponse → Response}
    (writes : ∀ mod, (wrap mod).write? = some mod)
    (versions : ∀ mod, (wrap mod).versions = [mod.previousVersion, mod.version]) :
    Processed db req ((db.store serial req.key value (db.cell req.key)).1,
      wrap (db.store serial req.key value (db.cell req.key)).2) := by
  obtain ⟨ok, previous⟩ := store_errcode db serial req.key value (db.cell req.key)
  rw [versioned.store_eq]
  exact .written value _ _ (writes _) ok (versions _) (versioned.store_version ..) previous

theorem WellVersioned.processed_noMatch {db : PancyDb} {req : Request} {serial : Nat} {vv : Vv}
    (old : vv.version < db.nextVersion) {wrap : ModResponse → Response}
    (errcode : ∀ mod, (wrap mod).errcode = mod.errcode)
    (versions : ∀ mod, (wrap mod).versions = [mod.previousVersion, mod.version]) :
    Processed db req (db, wrap (modNoMatch serial vv)) := by
  refine .unchanged _ (Or.inr ((errcode _).trans rfl)) ?_
  rw [versions]
  simpa [modNoMatch] using old

theorem WellVersioned.processed {db : PancyDb} (versioned : WellVersioned db) (req : Request) :
    Processed db req (db.processReq req) := by
  have positive := versioned.positive
  cases req with
  | get req =>
      refine .unchanged _ (Or.inl rfl) ?_
      simpa [Response.versions, processGet, findVvptr, PancyDb.cell] using
        (versioned.cell_version req.key).2
  | put req =>
      simp only [PancyDb.processReq, PancyDb.processPut]
      split
      · exact processed_noMatch (versioned.cell_version req.key).2 (fun _ => rfl) fun _ => rfl
      · exact versioned.processed_store (.put req) req.serial req.value (fun _ => rfl)
          fun _ => rfl
  | cas req =>
      simp only [PancyDb.processReq, PancyDb.processCas]
      split
      · exact processed_noMatch (versioned.cell_version req.key).2 (fun _ => rfl) fun _ => rfl
      · exact versioned.processed_store (.cas req) req.serial req.desired (fun _ => rfl)
          fun _ => rfl
  | remove req =>
      simp only [PancyDb.processReq, PancyDb.processRemove]
      split
      · refine .unchanged _ (Or.inl rfl) ?_
        simpa [Response.versions, nonexistentVersion] using positive
      · rename_i vv found
        split
        · exact processed_noMatch (versioned.bounds _ _ found).2 (fun _ => rfl) fun _ => rfl
        · exact @Processed.removed db (.remove req) vv _ found rfl rfl

theorem WellVersioned.processReq {db : PancyDb} (versioned : WellVersioned db) (req : Request) :
    WellVersioned (db.processReq req).1 := by
  have processed := versioned.processed req
  generalize db.processReq req = outcome at processed
  cases processed with
  | unchanged resp reads old => exact versioned
  | written value resp mod writes ok versions version previous => exact versioned.write _ _
  | removed vv resp found ok versions => exact versioned.doRemove _ _

/-- A request uses up a version exactly when it changes the database. -/
theorem WellVersioned.nextVersion_processReq {db : PancyDb} (versioned : WellVersioned db)
    (req : Request) : (db.processReq req).1.nextVersion =
      db.nextVersion + if (db.processReq req).1 = db then 0 else 1 := by
  have processed := versioned.processed req
  generalize db.processReq req = outcome at processed
  have changed : ∀ {next : PancyDb}, next.nextVersion = db.nextVersion + 1 →
      next.nextVersion = db.nextVersion + if next = db then 0 else 1 := by
    intro next used
    rw [if_neg, used]
    rintro rfl
    omega
  cases processed with
  | unchanged resp reads old => simp
  | written value resp mod writes ok versions version previous => exact changed rfl
  | removed vv resp found ok versions => exact changed rfl

/-- The versions that a response carries have been handed out. -/
theorem WellVersioned.versions_lt {db : PancyDb} (versioned : WellVersioned db) (req : Request)
    {version : Int} (carried : version ∈ (db.processReq req).2.versions) :
    version < (db.processReq req).1.nextVersion := by
  have positive := versioned.positive
  have processed := versioned.processed req
  generalize db.processReq req = outcome at processed carried
  cases processed with
  | unchanged resp reads old => exact old version carried
  | written value resp mod writes ok versions newest previous =>
      have next : (db.write req.key value).nextVersion = db.nextVersion + 1 := rfl
      have lower := (versioned.cell_version req.key).2
      simp only [versions, List.mem_cons, List.not_mem_nil, or_false] at carried
      rcases carried with rfl | rfl
      · dsimp only
        omega
      · dsimp only
        omega
  | removed vv resp found ok versions =>
      have next : (db.doRemove req.key vv).nextVersion = db.nextVersion + 1 := rfl
      have lower := (versioned.bounds _ _ found).2
      simp only [Response.versions, versions, List.mem_cons, List.not_mem_nil, or_false] at carried
      rcases carried with rfl | rfl
      · dsimp only
        omega
      · dsimp only
        omega

/-! ## Sequences of requests -/

theorem processReqs_append (db : PancyDb) (reqs more : List Request) :
    db.processReqs (reqs ++ more) = (db.processReqs reqs).processReqs more :=
  List.foldl_append

theorem WellVersioned.processReqs {db : PancyDb} (versioned : WellVersioned db)
    (reqs : List Request) : WellVersioned (db.processReqs reqs) := by
  induction reqs generalizing db with
  | nil => exact versioned
  | cons req rest ih => exact ih (versioned.processReq req)

theorem WellVersioned.nextVersion_processReqs {db : PancyDb} (versioned : WellVersioned db)
    (reqs : List Request) :
    (db.processReqs reqs).nextVersion = db.nextVersion + db.modifications reqs := by
  induction reqs generalizing db with
  | nil => simp [PancyDb.processReqs, modifications]
  | cons req rest ih =>
      have continued := ih (versioned.processReq req)
      rw [versioned.nextVersion_processReq] at continued
      refine continued.trans ?_
      rw [modifications]
      split <;> omega

theorem WellVersioned.nextVersion_mono {db : PancyDb} (versioned : WellVersioned db)
    {earlier reqs : List Request} (isPrefix : earlier <+: reqs) :
    (db.processReqs earlier).nextVersion ≤ (db.processReqs reqs).nextVersion := by
  obtain ⟨more, rfl⟩ := isPrefix
  rw [processReqs_append, (versioned.processReqs earlier).nextVersion_processReqs more]
  omega

/-- What has been seen has been handed out. -/
theorem Seen.lt_nextVersion {reqs : List Request} {version : Int} (seen : Seen reqs version) :
    version < (empty.processReqs reqs).nextVersion := by
  rcases seen with ⟨earlier, key, cell, isPrefix, found, rfl⟩ | ⟨earlier, req, isPrefix, carried⟩
  · have versioned := wellVersioned_empty.processReqs earlier
    have through := wellVersioned_empty.nextVersion_mono isPrefix
    exact (versioned.bounds key cell found).2.trans_le through
  · have versioned := wellVersioned_empty.processReqs earlier
    have through := wellVersioned_empty.nextVersion_mono isPrefix
    rw [processReqs_append] at through
    exact (versioned.versions_lt req carried).trans_le through

/-- Version discipline and atomic failure.  After any requests from the empty
database the stored versions are pairwise distinct and in range, and as many
versions have been used as requests have modified the database.  Whatever the
next request is: answered `no_match` or `not_found` it leaves the database as it
is, and a write that is answered `ok` returns the version now stored for its
key, newer than all seen before, and the version stored there before. -/
theorem version_discipline (reqs : List Request) :
    ∃ db, db = empty.processReqs reqs ∧
      (∀ key cell, db.db.find? key = some cell → 1 ≤ cell.version ∧ cell.version < db.nextVersion) ∧
      (∀ key other cell otherCell, db.db.find? key = some cell →
        db.db.find? other = some otherCell → key ≠ other → cell.version ≠ otherCell.version) ∧
      db.nextVersion - 1 = empty.modifications reqs ∧
      ∀ req,
        ((db.processReq req).2.errcode = .noMatch ∨ (db.processReq req).2.errcode = .notFound →
          (db.processReq req).1 = db) ∧
        ∀ mod, (db.processReq req).2.write? = some mod → mod.errcode = .ok →
          (∃ cell, (db.processReq req).1.db.find? req.key = some cell ∧
            mod.version = cell.version) ∧
          (∀ version, Seen reqs version → version < mod.version) ∧
          mod.previousVersion = ((db.db.find? req.key).map Vv.version).getD nonexistentVersion := by
  have versioned := wellVersioned_empty.processReqs reqs
  refine ⟨_, rfl, versioned.bounds, ?_, ?_, ?_⟩
  · intro key other cell otherCell found otherFound different same
    exact different (versioned.distinct key other cell otherCell found otherFound same)
  · have first : empty.nextVersion = 1 := rfl
    rw [wellVersioned_empty.nextVersion_processReqs]
    omega
  · intro req
    have seen : ∀ version, Seen reqs version → version < (empty.processReqs reqs).nextVersion :=
      fun version => Seen.lt_nextVersion
    have processed := versioned.processed req
    generalize (empty.processReqs reqs) = db at versioned processed seen ⊢
    generalize db.processReq req = outcome at processed ⊢
    cases processed with
    | unchanged resp reads old =>
        refine ⟨fun _ => rfl, ?_⟩
        intro mod writes ok
        rcases reads with unread | failed
        · rw [unread] at writes
          contradiction
        · rw [Response.errcode_of_write? writes, ok] at failed
          contradiction
    | written value resp mod writes ok versions newest previous =>
        refine ⟨?_, ?_⟩
        · rw [Response.errcode_of_write? writes, ok]
          simp
        · intro other otherWrites _
          obtain rfl := Option.some.inj (writes.symm.trans otherWrites)
          refine ⟨⟨_, (find?_write _ _ _ _).trans (if_pos rfl), newest⟩, ?_, ?_⟩
          · rw [newest]
            exact seen
          · exact previous.trans (versioned.cell_version req.key).1
    | removed vv resp found ok versions =>
        refine ⟨?_, fun mod writes => ?_⟩
        · simp [Response.errcode, ok]
        · contradiction

end PancyDb

end DoomDraft.Pancy
