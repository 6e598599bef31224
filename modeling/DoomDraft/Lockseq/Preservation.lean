import DoomDraft.Lockseq.Answers

/-!
# Preservation of the invariant

Only the arrival of a request changes the database, and with it what the client of
the request holds.
-/

namespace DoomDraft.Lockseq.World

open Pancy

variable {model : LockseqModel} {w : World model}

/-! ## Arrivals -/

theorem execute_eq {req : Request} (unanswered : w.responses req.serial = none) :
    w.execute req = { w with
      db := (w.db.processReq req).1
      responses := Function.update w.responses req.serial (some (w.db.processReq req).2) } := by
  simp only [execute, unanswered]

/-- The execution of a request answers the client whose request it is. -/
theorem Sound.response_execute (sound : w.Sound) {cid : Fin model.nclients} {req : Request}
    (isRequest : (w.clients cid).request = some req)
    (unanswered : w.responses req.serial = none) :
    (w.execute req).response cid = some (w.db.processReq req).2 ∧
      ∀ other ≠ cid, (w.execute req).response other = w.response other := by
  have serial := request_serial isRequest
  rw [execute_eq unanswered]
  constructor
  · rw [response, serial]
    exact Function.update_self ..
  · intro other different
    rw [response, serial]
    exact Function.update_of_ne (sound.serial_ne different 0) ..

theorem Sound.hold_execute (sound : w.Sound) {cid : Fin model.nclients} {req : Request}
    (isRequest : (w.clients cid).request = some req)
    (unanswered : w.responses req.serial = none) :
    (w.execute req).hold cid = (w.clients cid).hold (some (w.db.processReq req).2) ∧
      ∀ other ≠ cid, (w.execute req).hold other = w.hold other := by
  obtain ⟨mine, theirs⟩ := sound.response_execute isRequest unanswered
  have clients : (w.execute req).clients = w.clients := by rw [execute_eq unanswered]
  constructor
  · rw [hold, clients, mine]
  · intro other different
    rw [hold, hold, clients, theirs other different]

/-- The execution of the current request of a client, which changes at most one key
of the group of the client. -/
theorem Sound.execute_change (sound : w.Sound) {cid : Fin model.nclients} {req : Request}
    {key : ByteString} {cell : Option Vv} (isRequest : (w.clients cid).request = some req)
    (unanswered : w.responses req.serial = none) (isKey : IsKeyOf (w.clients cid).gid key)
    (change : ∀ k, (w.db.processReq req).1.db.find? k = if k = key then cell else w.db.db.find? k)
    (expected : (w.clients cid).Expects (w.db.processReq req).2)
    (others : ∀ other ≠ cid, (w.hold other).isSome = true →
      (w.clients other).gid = (w.clients cid).gid →
        SameGroup (w.clients cid).gid w.db (w.db.processReq req).1)
    (held : ∀ hold ∈ (w.clients cid).hold (some (w.db.processReq req).2),
      Held (w.db.processReq req).1 (w.clients cid).gid (w.clients cid).value hold)
    (owned : Free (w.db.processReq req).1 (w.clients cid).gid ∨
      ((w.clients cid).hold (some (w.db.processReq req).2)).isSome = true ∨
      ∃ other ≠ cid, (w.clients other).gid = (w.clients cid).gid ∧
        (w.hold other).isSome = true) : (w.execute req).Sound := by
  have serial := request_serial isRequest
  have phase : (w.clients cid).phase ≠ .delay := by
    intro delay
    rw [Client.request, delay] at isRequest
    contradiction
  have executes := execute_eq unanswered
  have clients : (w.execute req).clients = w.clients := by rw [executes]
  have db : (w.execute req).db = (w.db.processReq req).1 := by rw [executes]
  obtain ⟨mine, theirs⟩ := sound.response_execute isRequest unanswered
  obtain ⟨myHold, otherHold⟩ := sound.hold_execute isRequest unanswered
  refine ⟨?_, ?_, ?_, ?_, ?_, ?_, ?_, ?_⟩
  · exact db ▸ sound.versioned.processReq req
  · exact clients ▸ sound.wellFormed
  · rw [executes]
    intro other member noResponse
    refine sound.current other member ?_
    dsimp only at noResponse
    rw [Function.update_apply] at noResponse
    split at noResponse
    · contradiction
    · exact noResponse
  · rw [executes]
    intro other k
    dsimp only
    rw [Function.update_apply, if_neg, sound.fresh other k]
    rw [serial]
    by_cases same : other = cid
    · subst same
      have positive : 0 < (k + 1) * serialStep := Nat.mul_pos (Nat.succ_pos k) (by decide)
      omega
    · exact sound.serial_ne same (k + 1)
  · intro other
    rw [clients]
    by_cases same : other = cid
    · subst same
      rw [mine]
      intro resp isResp
      obtain rfl := Option.some.inj isResp
      exact expected
    · rw [theirs other same]
      exact sound.expected other
  · rw [db]
    intro k stored found
    rw [change] at found
    split at found
    · rename_i atKey
      exact ⟨_, ((sound.wellFormed cid).picked phase).1, atKey ▸ isKey⟩
    · exact sound.keys k stored found
  · intro other
    rw [db, clients]
    by_cases same : other = cid
    · subst same
      rw [myHold]
      exact held
    · rw [otherHold other same]
      intro hold holds
      refine (sound.held other hold holds).congr ?_
      by_cases sameGid : (w.clients other).gid = (w.clients cid).gid
      · exact sameGid ▸ others other same (holds ▸ rfl) sameGid
      · exact sameGroup_of_change isKey change sameGid
  · intro gid
    rw [db, clients]
    by_cases sameGid : gid = (w.clients cid).gid
    · subst sameGid
      rcases owned with free | holds | ⟨other, different, gidEq, holds⟩
      · exact Or.inl free
      · exact Or.inr ⟨cid, rfl, myHold ▸ holds⟩
      · exact Or.inr ⟨other, gidEq, (otherHold other different).symm ▸ holds⟩
    · rcases sound.owned gid with free | ⟨other, gidEq, holds⟩
      · exact Or.inl (free.congr (sameGroup_of_change isKey change sameGid))
      · refine Or.inr ⟨other, gidEq, ?_⟩
        rw [otherHold]
        · exact holds
        · rintro rfl
          exact sameGid gidEq.symm

/-- Nobody else holds the group of a client that holds its lock. -/
theorem Sound.others_of_hold (sound : w.Sound) {cid : Fin model.nclients} {hold : Hold}
    (holds : w.hold cid = some hold) {db : PancyDb} :
    ∀ other ≠ cid, (w.hold other).isSome = true → (w.clients other).gid = (w.clients cid).gid →
      SameGroup (w.clients cid).gid w.db db := by
  intro other different otherHolds sameGid
  obtain ⟨otherHold, otherHolds⟩ := Option.isSome_iff_exists.mp otherHolds
  exact absurd (sound.hold_unique otherHolds holds sameGid) different

theorem response_eq_none {cid : Fin model.nclients} {req : Request}
    (isRequest : (w.clients cid).request = some req)
    (unanswered : w.responses req.serial = none) : w.response cid = none := by
  rwa [response, ← request_serial isRequest]

theorem Sound.execute_lock (sound : w.Sound) {cid : Fin model.nclients} {req : Request}
    (phase : (w.clients cid).phase = .lock) (isRequest : (w.clients cid).request = some req)
    (unanswered : w.responses req.serial = none) : (w.execute req).Sound := by
  have reqEq : req = .cas ⟨(w.clients cid).serial, makeLockKey (w.clients cid).gid, [],
      (w.clients cid).value, anyVersion⟩ := by
    rw [Client.request, phase] at isRequest
    exact (Option.some.inj isRequest).symm
  have noHold : w.hold cid = none := by
    have noResponse := response_eq_none isRequest unanswered
    simp [hold, noResponse, Client.hold, phase]
  have isKey : IsKeyOf (w.clients cid).gid (makeLockKey (w.clients cid).gid) := Or.inl rfl
  cases lock : w.db.db.find? (makeLockKey (w.clients cid).gid) with
  | none =>
      obtain ⟨resp, respEq, ok, change⟩ := processCas_free sound.versioned lock
        (w.clients cid).serial (w.clients cid).value
      rw [← reqEq] at respEq change
      have next : (w.clients cid).hold (some (w.db.processReq req).2) =
          some ⟨resp.version, 0, 0⟩ := by
        simp [respEq, Client.hold, phase, ok]
      apply sound.execute_change isRequest unanswered isKey change
      · simp [respEq, Client.Expects, phase, ok]
      · intro other different otherHolds sameGid
        obtain ⟨otherHold, otherHolds⟩ := Option.isSome_iff_exists.mp otherHolds
        have otherLock := (sound.held other otherHold otherHolds).lock
        rw [sameGid, lock] at otherLock
        contradiction
      · intro hold holds
        obtain rfl := Option.some.inj (next.symm.trans holds)
        rcases sound.owned (w.clients cid).gid with free | ⟨other, gidEq, otherHolds⟩
        · exact free.lock change
        · rw [sound.hold_eq_none (gidEq.symm ▸ lock)] at otherHolds
          contradiction
      · exact Or.inr (Or.inl (next ▸ rfl))
  | some cell =>
      obtain ⟨other, hold, gidEq, holds, valueEq⟩ := sound.exists_hold lock
      have theirs : IsValueOf other cell.value := valueEq ▸ sound.value_of_hold holds
      have different : other ≠ cid := by
        rintro rfl
        rw [noHold] at holds
        contradiction
      have fails := processCas_held lock theirs.ne_nil (w.clients cid).serial (w.clients cid).value
      rw [← reqEq] at fails
      have same : (w.db.processReq req).1 = w.db := congrArg Prod.fst fails
      apply sound.execute_change isRequest unanswered isKey (find?_unchanged same lock)
      · rw [fails]
        simp only [Client.Expects, phase, PancyDb.modNoMatch]
        refine Or.inr ⟨trivial, other, ?_, theirs⟩
        rw [(sound.wellFormed cid).cid_eq]
        exact fun same => different (Fin.ext same)
      · intro _ _ _ _
        rw [fails]
        exact ⟨rfl, fun _ => rfl⟩
      · rw [fails]
        simp [Client.hold, phase, PancyDb.modNoMatch]
      · exact Or.inr (Or.inr ⟨other, different, gidEq, holds ▸ rfl⟩)

theorem Sound.execute_write (sound : w.Sound) {cid : Fin model.nclients} {req : Request} {n : Nat}
    (phase : (w.clients cid).phase = .write n) (isRequest : (w.clients cid).request = some req)
    (unanswered : w.responses req.serial = none) : (w.execute req).Sound := by
  have reqEq : req = .put ⟨(w.clients cid).serial, makeValueKey (w.clients cid).gid n,
      (w.clients cid).value, anyVersion⟩ := by
    rw [Client.request, phase] at isRequest
    exact (Option.some.inj isRequest).symm
  have holds : w.hold cid = some ⟨(w.clients cid).lockVersion, n, n⟩ := by
    have noResponse := response_eq_none isRequest unanswered
    simp [hold, noResponse, Client.hold, phase]
  have inRange : n < maxSequenceLength :=
    Nat.lt_of_lt_of_le ((sound.wellFormed cid).writes n phase)
      ((sound.wellFormed cid).picked (phase_of_hold holds)).2.2.2
  obtain ⟨resp, respEq, ok, change⟩ := processPut_stores sound.versioned
    (w.clients cid).serial (makeValueKey (w.clients cid).gid n) (w.clients cid).value
  rw [← reqEq] at respEq change
  have next : (w.clients cid).hold (some (w.db.processReq req).2) =
      some ⟨(w.clients cid).lockVersion, n + 1, n + 1⟩ := by
    simp [Client.hold, phase]
  apply sound.execute_change isRequest unanswered (Or.inr ⟨n, inRange, rfl⟩) change
  · simp [respEq, Client.Expects, phase, ok]
  · exact sound.others_of_hold holds
  · intro hold nextHolds
    obtain rfl := Option.some.inj (next.symm.trans nextHolds)
    exact (sound.held cid _ holds).write inRange change
  · exact Or.inr (Or.inl (next ▸ rfl))

theorem Sound.execute_clear (sound : w.Sound) {cid : Fin model.nclients} {req : Request} {n : Nat}
    (phase : (w.clients cid).phase = .clear n) (isRequest : (w.clients cid).request = some req)
    (unanswered : w.responses req.serial = none) : (w.execute req).Sound := by
  have reqEq : req = .remove ⟨(w.clients cid).serial, makeValueKey (w.clients cid).gid n,
      anyVersion⟩ := by
    rw [Client.request, phase] at isRequest
    exact (Option.some.inj isRequest).symm
  have holds : w.hold cid = some ⟨(w.clients cid).lockVersion, (w.clients cid).nvalues, n⟩ := by
    have noResponse := response_eq_none isRequest unanswered
    simp [hold, noResponse, Client.hold, phase]
  have upper := ((sound.wellFormed cid).clears n phase).2
  have held := sound.held cid _ holds
  have isKey : IsKeyOf (w.clients cid).gid (makeValueKey (w.clients cid).gid n) :=
    Or.inr ⟨n, upper, rfl⟩
  cases stored : w.db.db.find? (makeValueKey (w.clients cid).gid n) with
  | none =>
      have fails := @processRemove_absent w.db
        ⟨(w.clients cid).serial, makeValueKey (w.clients cid).gid n, anyVersion⟩ stored
      rw [← reqEq] at fails
      have next : (w.clients cid).hold (some (w.db.processReq req).2) =
          some ⟨(w.clients cid).lockVersion, (w.clients cid).nvalues, maxSequenceLength⟩ := by
        simp [fails, Client.hold, phase, Response.errcode]
      have same : (w.db.processReq req).1 = w.db := congrArg Prod.fst fails
      apply sound.execute_change isRequest unanswered isKey (find?_unchanged same stored)
      · simp [fails, Client.Expects, phase]
      · exact sound.others_of_hold holds
      · intro hold nextHolds
        obtain rfl := Option.some.inj (next.symm.trans nextHolds)
        rw [same]
        exact held.cleared stored
      · exact Or.inr (Or.inl (next ▸ rfl))
  | some cell =>
      obtain ⟨resp, respEq, ok, change⟩ := @processRemove_present w.db
        ⟨(w.clients cid).serial, makeValueKey (w.clients cid).gid n, anyVersion⟩ cell stored
        (Or.inl (show anyVersion < 0 by decide))
      rw [← reqEq] at respEq change
      have next : (w.clients cid).hold (some (w.db.processReq req).2) =
          some ⟨(w.clients cid).lockVersion, (w.clients cid).nvalues, n + 1⟩ := by
        simp [respEq, Client.hold, phase, Response.errcode, ok]
      apply sound.execute_change isRequest unanswered isKey change
      · simp [respEq, Client.Expects, phase, ok]
      · exact sound.others_of_hold holds
      · intro hold nextHolds
        obtain rfl := Option.some.inj (next.symm.trans nextHolds)
        exact held.clear upper change
      · exact Or.inr (Or.inl (next ▸ rfl))

theorem Sound.execute_unlock (sound : w.Sound) {cid : Fin model.nclients} {req : Request}
    (phase : (w.clients cid).phase = .unlock) (isRequest : (w.clients cid).request = some req)
    (unanswered : w.responses req.serial = none) : (w.execute req).Sound := by
  have reqEq : req = .remove ⟨(w.clients cid).serial, makeLockKey (w.clients cid).gid,
      (w.clients cid).lockVersion⟩ := by
    rw [Client.request, phase] at isRequest
    exact (Option.some.inj isRequest).symm
  have holds : w.hold cid =
      some ⟨(w.clients cid).lockVersion, (w.clients cid).nvalues, maxSequenceLength⟩ := by
    have noResponse := response_eq_none isRequest unanswered
    simp [hold, noResponse, Client.hold, phase]
  have held := sound.held cid _ holds
  obtain ⟨resp, respEq, ok, change⟩ := @processRemove_present w.db
    ⟨(w.clients cid).serial, makeLockKey (w.clients cid).gid, (w.clients cid).lockVersion⟩ _
    held.lock (Or.inr rfl)
  rw [← reqEq] at respEq change
  apply sound.execute_change isRequest unanswered (Or.inl rfl) change
  · simp [respEq, Client.Expects, phase, ok]
  · exact sound.others_of_hold holds
  · simp [Client.hold, phase]
  · exact Or.inl (held.unlock (sound.value_of_hold holds).ne_nil change)

theorem Sound.arrive (sound : w.Sound) {req : Request} (member : req ∈ w.sent) :
    (w.execute req).Sound := by
  cases answered : w.responses req.serial with
  | some resp =>
      have same : w.execute req = w := by simp only [execute, answered]
      rw [same]
      exact sound
  | none =>
      obtain ⟨cid, isRequest⟩ := sound.current req member answered
      cases phase : (w.clients cid).phase with
      | delay =>
          rw [Client.request, phase] at isRequest
          contradiction
      | lock => exact sound.execute_lock phase isRequest answered
      | write n => exact sound.execute_write phase isRequest answered
      | clear n => exact sound.execute_clear phase isRequest answered
      | unlock => exact sound.execute_unlock phase isRequest answered

/-! ## Runs -/

theorem Sound.step (sound : w.Sound) {action : Action model} {next : World model}
    (stepped : w.step action = some next) : next.Sound := by
  cases steps_of_step stepped with
  | pick cid gid random nvalues idle gidLt positive short =>
      exact sound.pick idle gidLt positive short
  | send cid req isRequest =>
      apply sound.touch cid (w.clients cid).tries true (w.clients cid).status
      intro other member
      rcases List.mem_append.mp member with before | new
      · exact Or.inl before
      · exact Or.inr (List.mem_singleton.mp new ▸ isRequest)
  | arrive req sent => exact sound.arrive sent
  | answer cid resp running answered => exact sound.answer answered
  | noAnswer cid => exact sound.touch cid _ false _ fun req member => Or.inl member
  | stop cid =>
      exact sound.touch cid _ (w.clients cid).waiting .stopped fun req member => Or.inl member

theorem sound_of_perform {actions : List (Action model)} {final : World model}
    (run : (start model).perform actions = some final) : final.Sound :=
  Transition.perform_invariant (fun _ _ _ sound stepped => sound.step stepped) (sound_start model)
    run

end DoomDraft.Lockseq.World
