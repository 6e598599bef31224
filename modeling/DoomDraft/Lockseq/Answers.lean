import DoomDraft.Lockseq.Invariant

/-!
# Steps of the clients

A step of a client leaves the database alone, and what the client holds is the same
before and after.
-/

namespace DoomDraft.Lockseq.World

open Pancy

variable {model : LockseqModel} {w : World model}

/-! ## Within a request -/

/-- Replacing a client keeps the invariant if the client fits the database. -/
theorem Sound.set (sound : w.Sound) {cid : Fin model.nclients} {client : Client}
    {sent : List Request} (wellFormed : client.WellFormed model cid)
    (current : ∀ req ∈ sent, w.responses req.serial = none → client.request = some req ∨
      ∃ other ≠ cid, (w.clients other).request = some req)
    (fresh : ∀ k, w.responses (client.serial + (k + 1) * serialStep) = none)
    (expected : ∀ resp ∈ w.responses client.serial, client.Expects resp)
    (held : ∀ hold ∈ client.hold (w.responses client.serial),
      Held w.db client.gid client.value hold)
    (kept : (w.hold cid).isSome = true → client.gid = (w.clients cid).gid ∧
      (client.hold (w.responses client.serial)).isSome = true) :
    ({ w.set cid client with sent := sent } : World model).Sound := by
  have self : (w.set cid client).clients cid = client := Function.update_self ..
  have others : ∀ other ≠ cid, (w.set cid client).clients other = w.clients other :=
    fun other different => Function.update_of_ne different ..
  refine ⟨sound.versioned, ?_, ?_, ?_, ?_, sound.keys, ?_, ?_⟩
  · intro other
    by_cases same : other = cid
    · subst same
      exact self.symm ▸ wellFormed
    · exact (others other same).symm ▸ sound.wellFormed other
  · intro req member unanswered
    rcases current req member unanswered with mine | ⟨other, different, theirs⟩
    · exact ⟨cid, self.symm ▸ mine⟩
    · exact ⟨other, (others other different).symm ▸ theirs⟩
  · intro other k
    by_cases same : other = cid
    · subst same
      change w.responses (((w.set other client).clients other).serial + _) = none
      rw [self]
      exact fresh k
    · change w.responses (((w.set cid client).clients other).serial + _) = none
      rw [others other same]
      exact sound.fresh other k
  · intro other
    change ∀ resp ∈ w.responses ((w.set cid client).clients other).serial,
      ((w.set cid client).clients other).Expects resp
    by_cases same : other = cid
    · subst same
      rw [self]
      exact expected
    · rw [others other same]
      exact sound.expected other
  · intro other
    change ∀ hold ∈ ((w.set cid client).clients other).hold
        (w.responses ((w.set cid client).clients other).serial),
      Held w.db ((w.set cid client).clients other).gid ((w.set cid client).clients other).value hold
    by_cases same : other = cid
    · subst same
      rw [self]
      exact held
    · rw [others other same]
      exact sound.held other
  · intro gid
    refine (sound.owned gid).imp id ?_
    rintro ⟨other, gidEq, holds⟩
    refine ⟨other, ?_⟩
    change ((w.set cid client).clients other).gid = gid ∧
      (((w.set cid client).clients other).hold
        (w.responses ((w.set cid client).clients other).serial)).isSome = true
    by_cases same : other = cid
    · subst same
      rw [self]
      exact ⟨(kept holds).1.trans gidEq, (kept holds).2⟩
    · rw [others other same]
      exact ⟨gidEq, holds⟩

/-- A step within one try of a request. -/
theorem Sound.touch (sound : w.Sound) (cid : Fin model.nclients) (tries : Nat) (waiting : Bool)
    (status : Status) {sent : List Request}
    (sends : ∀ req ∈ sent, req ∈ w.sent ∨ (w.clients cid).request = some req) :
    ({ w.set cid { w.clients cid with tries, waiting, status } with sent } :
      World model).Sound := by
  have old := sound.wellFormed cid
  apply sound.set
  · exact ⟨old.cid_eq, old.serial_mod, old.picked, old.writes, old.clears⟩
  · intro req member unanswered
    rcases sends req member with before | mine
    · obtain ⟨other, theirs⟩ := sound.current req before unanswered
      by_cases same : other = cid
      · exact Or.inl (same ▸ theirs)
      · exact Or.inr ⟨other, same, theirs⟩
    · exact Or.inl mine
  · exact sound.fresh cid
  · exact sound.expected cid
  · exact sound.held cid
  · exact fun holds => ⟨rfl, holds⟩

/-- After the response, the request of the client is not current any more. -/
theorem Sound.current_of_response (sound : w.Sound) {cid : Fin model.nclients}
    (done : (w.clients cid).request = none ∨ (w.response cid).isSome = true) {req : Request}
    (member : req ∈ w.sent) (unanswered : w.responses req.serial = none) :
    ∃ other ≠ cid, (w.clients other).request = some req := by
  obtain ⟨other, theirs⟩ := sound.current req member unanswered
  refine ⟨other, ?_, theirs⟩
  rintro rfl
  rcases done with noRequest | answered
  · rw [noRequest] at theirs
    contradiction
  · rw [response, ← request_serial theirs, unanswered] at answered
    contradiction

/-- A step to a request with a new serial. -/
theorem Sound.advance (sound : w.Sound) {cid : Fin model.nclients} {client : Client}
    (done : (w.clients cid).request = none ∨ (w.response cid).isSome = true)
    (serial : client.serial = (w.clients cid).serial + serialStep)
    (wellFormed : client.WellFormed model cid)
    (held : ∀ hold ∈ client.hold none, Held w.db client.gid client.value hold)
    (kept : (w.hold cid).isSome = true → client.gid = (w.clients cid).gid ∧
      (client.hold none).isSome = true) : (w.set cid client).Sound := by
  have unanswered : w.responses client.serial = none := by
    have next := sound.fresh cid 0
    rwa [Nat.zero_add, Nat.one_mul, ← serial] at next
  apply sound.set wellFormed
  · exact fun req member noResponse => Or.inr (sound.current_of_response done member noResponse)
  · intro k
    have next := sound.fresh cid (k + 1)
    rwa [Nat.succ_mul, Nat.add_comm ((k + 1) * serialStep), ← Nat.add_assoc, ← serial] at next
  · rw [unanswered]
    intro resp noExpected
    cases noExpected
  · rw [unanswered]
    exact held
  · rw [unanswered]
    exact kept

theorem Sound.pick (sound : w.Sound) {cid : Fin model.nclients} {gid random nvalues : Nat}
    (idle : (w.clients cid).phase = .delay) (gidLt : gid < model.ngroups) (positive : 1 ≤ nvalues)
    (short : nvalues ≤ maxSequenceLength) :
    (w.set cid ((w.clients cid).pick gid random nvalues)).Sound := by
  have old := sound.wellFormed cid
  have noHold : w.hold cid = none := by
    cases holds : w.hold cid with
    | none => rfl
    | some hold => exact absurd idle (phase_of_hold holds)
  apply sound.advance
  · exact Or.inl (by rw [Client.request, idle])
  · rfl
  · refine ⟨old.cid_eq, ?_, fun _ => ⟨gidLt, ⟨random, ?_⟩, positive, short⟩, ?_, ?_⟩
    · exact (Nat.add_mod_right _ _).trans old.serial_mod
    · exact congrArg (clientKeyPrefix · ++ uniformHex random) old.cid_eq
    · intro n atWrite
      contradiction
    · intro n atClear
      contradiction
  · intro hold noExpected
    cases noExpected
  · intro holds
    rw [noHold] at holds
    contradiction

/-! ## Answers -/

/-- A client that holds its lock goes on to the next request. -/
theorem Sound.proceed (sound : w.Sound) {cid : Fin model.nclients} {hold next : Hold}
    {lockVersion : Int} {phase : Phase} (answered : (w.response cid).isSome = true)
    (holds : w.hold cid = some hold)
    (nextHolds : ({ w.clients cid with lockVersion }.enter phase).hold none = some next)
    (held : Held w.db (w.clients cid).gid (w.clients cid).value next)
    (writes : ∀ n, phase = .write n → n < (w.clients cid).nvalues)
    (clears : ∀ n, phase = .clear n → (w.clients cid).nvalues ≤ n ∧ n < maxSequenceLength) :
    (w.set cid ({ w.clients cid with lockVersion }.enter phase)).Sound := by
  have old := sound.wellFormed cid
  apply sound.advance
  · exact Or.inr answered
  · rfl
  · exact ⟨old.cid_eq, (Nat.add_mod_right _ _).trans old.serial_mod,
      fun _ => old.picked (phase_of_hold holds), writes, clears⟩
  · intro other otherHolds
    obtain rfl := Option.some.inj (nextHolds.symm.trans otherHolds)
    exact held
  · exact fun _ => ⟨rfl, nextHolds ▸ rfl⟩

theorem Sound.clearFrom (sound : w.Sound) {cid : Fin model.nclients} {lockVersion : Int}
    {cleared n : Nat} (answered : (w.response cid).isSome = true)
    (holds : w.hold cid = some ⟨lockVersion, (w.clients cid).nvalues, cleared⟩)
    (lower : (w.clients cid).nvalues ≤ n) (upper : n ≤ maxSequenceLength)
    (gap : cleared = n ∨ cleared = maxSequenceLength) :
    (w.set cid ({ w.clients cid with lockVersion }.clearFrom n)).Sound := by
  have held := sound.held cid _ holds
  unfold Client.clearFrom
  split
  · rename_i more
    refine sound.proceed answered holds rfl ⟨held.lock, lower, upper, ?_⟩ ?_ ?_
    · rcases gap with rfl | rfl
      · exact held.laid
      · exact held.laid.anywhere n
    · intro m atWrite
      contradiction
    · intro m atClear
      obtain rfl := Phase.clear.inj atClear
      exact ⟨lower, more⟩
  · have gapEnd : cleared = maxSequenceLength := by omega
    subst gapEnd
    refine sound.proceed answered holds rfl held ?_ ?_
    · intro m atWrite
      contradiction
    · intro m atClear
      contradiction

theorem Sound.writeFrom (sound : w.Sound) {cid : Fin model.nclients} {lockVersion : Int} {n : Nat}
    (answered : (w.response cid).isSome = true) (holds : w.hold cid = some ⟨lockVersion, n, n⟩)
    (upper : n ≤ (w.clients cid).nvalues) :
    (w.set cid ({ w.clients cid with lockVersion }.writeFrom n)).Sound := by
  have picked := (sound.wellFormed cid).picked (phase_of_hold holds)
  unfold Client.writeFrom
  split
  · rename_i more
    refine sound.proceed answered holds rfl (sound.held cid _ holds) ?_ ?_
    · intro m atWrite
      obtain rfl := Phase.write.inj atWrite
      exact Nat.lt_of_le_of_ne upper more
    · intro m atClear
      contradiction
  · rename_i all
    obtain rfl := not_not.mp all
    exact sound.clearFrom answered holds (Nat.le_refl _) picked.2.2.2 (Or.inl rfl)

theorem Sound.lockAnswer (sound : w.Sound) {cid : Fin model.nclients} {resp : ModResponse}
    (phase : (w.clients cid).phase = .lock) (answered : w.response cid = some (.cas resp)) :
    (w.set cid ((w.clients cid).lockAnswer resp)).Sound := by
  have expected := sound.expected cid _ answered
  simp only [Client.Expects, phase] at expected
  have isAnswered : (w.response cid).isSome = true := answered ▸ rfl
  have old := sound.wellFormed cid
  have picked := old.picked (by simp [phase])
  unfold Client.lockAnswer
  split
  · rename_i ok
    have holds : w.hold cid = some ⟨resp.version, 0, 0⟩ := by
      simp [hold, answered, Client.hold, phase, ok]
    exact sound.writeFrom isAnswered holds (Nat.zero_le _)
  · rename_i failed
    obtain ⟨noMatch, other, different, theirs⟩ := expected.resolve_left failed
    have notMine : resp.actual ≠ (w.clients cid).value := by
      intro same
      rw [same] at theirs
      exact different ((theirs.inj picked.2.1).trans old.cid_eq.symm)
    rw [if_neg (not_not.mpr noMatch), if_neg fun mine => notMine mine.1]
    split
    · exact sound.touch cid _ false (.thrown .noMatch) fun req member => Or.inl member
    · exact sound.touch cid _ false _ fun req member => Or.inl member

theorem Sound.writeAnswer (sound : w.Sound) {cid : Fin model.nclients} {n : Nat}
    {resp : ModResponse} (phase : (w.clients cid).phase = .write n)
    (answered : w.response cid = some (.put resp)) :
    (w.set cid ((w.clients cid).writeAnswer n resp)).Sound := by
  have ok := sound.expected cid _ answered
  simp only [Client.Expects, phase] at ok
  have holds : w.hold cid = some ⟨(w.clients cid).lockVersion, n + 1, n + 1⟩ := by
    simp [hold, answered, Client.hold, phase]
  rw [Client.writeAnswer, if_neg (not_not.mpr ok)]
  exact sound.writeFrom (answered ▸ rfl) holds ((sound.wellFormed cid).writes n phase)

theorem Sound.clearAnswer (sound : w.Sound) {cid : Fin model.nclients} {n : Nat}
    {resp : ModResponse} (phase : (w.clients cid).phase = .clear n)
    (answered : w.response cid = some (.remove resp)) :
    (w.set cid ((w.clients cid).clearAnswer n resp)).Sound := by
  have expected := sound.expected cid _ answered
  simp only [Client.Expects, phase] at expected
  have isAnswered : (w.response cid).isSome = true := answered ▸ rfl
  obtain ⟨lower, upper⟩ := (sound.wellFormed cid).clears n phase
  have noThrow : ¬ (resp.errcode ≠ .ok ∧ resp.errcode ≠ .notFound) := by tauto
  rw [Client.clearAnswer, if_neg noThrow]
  rcases expected with ok | notFound
  · have holds : w.hold cid =
        some ⟨(w.clients cid).lockVersion, (w.clients cid).nvalues, n + 1⟩ := by
      simp [hold, answered, Client.hold, phase, Response.errcode, ok]
    rw [if_neg (by simp [ok])]
    exact sound.clearFrom isAnswered holds (by omega) upper (Or.inl rfl)
  · have holds : w.hold cid =
        some ⟨(w.clients cid).lockVersion, (w.clients cid).nvalues, maxSequenceLength⟩ := by
      simp [hold, answered, Client.hold, phase, Response.errcode, notFound]
    split
    · refine sound.proceed isAnswered holds rfl (sound.held cid _ holds) ?_ ?_
      · intro m atWrite
        contradiction
      · intro m atClear
        contradiction
    · exact sound.clearFrom isAnswered holds (by omega) upper (Or.inr rfl)

theorem Sound.unlockAnswer (sound : w.Sound) {cid : Fin model.nclients} {resp : ModResponse}
    (phase : (w.clients cid).phase = .unlock) (answered : w.response cid = some (.remove resp)) :
    (w.set cid ((w.clients cid).unlockAnswer resp)).Sound := by
  have ok := sound.expected cid _ answered
  simp only [Client.Expects, phase] at ok
  have isAnswered : (w.response cid).isSome = true := answered ▸ rfl
  have old := sound.wellFormed cid
  have noHold : w.hold cid = none := by simp [hold, answered, Client.hold, phase]
  rw [Client.unlockAnswer, if_neg fun both => both.1 ok]
  apply sound.set
  · refine ⟨old.cid_eq, old.serial_mod, fun picked => absurd rfl picked, ?_, ?_⟩
    · intro n atWrite
      contradiction
    · intro n atClear
      contradiction
  · intro req member unanswered
    exact Or.inr (sound.current_of_response (Or.inr isAnswered) member unanswered)
  · exact sound.fresh cid
  · exact fun _ _ => trivial
  · intro next holds
    exact absurd rfl (phase_of_hold holds)
  · intro holds
    rw [noHold] at holds
    contradiction

theorem Sound.answer (sound : w.Sound) {cid : Fin model.nclients} {resp : Response}
    (answered : w.response cid = some resp) :
    (w.set cid ((w.clients cid).answer resp)).Sound := by
  unfold Client.answer
  split
  · rename_i phase
    exact sound.lockAnswer phase answered
  · rename_i phase
    exact sound.writeAnswer phase answered
  · rename_i phase
    exact sound.clearAnswer phase answered
  · rename_i phase
    exact sound.unlockAnswer phase answered
  · exact sound.touch cid _ false _ fun req member => Or.inl member

end DoomDraft.Lockseq.World
