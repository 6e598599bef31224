import DoomDraft.Lockseq.Ownership

/-!
# The invariant of the lock-sequence clients

Every group is either free or held by one client, whose progress tells what is
stored in the group.  A serial that has no response yet belongs to the current
request of the client whose serial it is.
-/

namespace DoomDraft.Lockseq

open Pancy

variable {model : LockseqModel}

/-- The local variables of a client have values that its loops can give them. -/
structure Client.WellFormed (model : LockseqModel) (cid : Fin model.nclients)
    (client : Client) : Prop where
  cid_eq : client.cid = cid
  serial_mod : client.serial % serialStep = cid
  picked : client.phase ≠ .delay → client.gid < model.ngroups ∧ IsValueOf cid client.value ∧
    1 ≤ client.nvalues ∧ client.nvalues ≤ maxSequenceLength
  writes : ∀ n, client.phase = .write n → n < client.nvalues
  clears : ∀ n, client.phase = .clear n → client.nvalues ≤ n ∧ n < maxSequenceLength

/-- The first responses that the request of a client can have. -/
def Client.Expects (self : Client) (resp : Response) : Prop :=
  match self.phase, resp with
  | .delay, _ => True
  | .lock, .cas resp => resp.errcode = .ok ∨
      resp.errcode = .noMatch ∧ ∃ other, other ≠ self.cid ∧ IsValueOf other resp.actual
  | .write _, .put resp => resp.errcode = .ok
  | .clear _, .remove resp => resp.errcode = .ok ∨ resp.errcode = .notFound
  | .unlock, .remove resp => resp.errcode = .ok
  | _, _ => False

namespace World

/-- The first response to the current request of a client. -/
def response (w : World model) (cid : Fin model.nclients) : Option Response :=
  w.responses (w.clients cid).serial

/-- What a client holds. -/
def hold (w : World model) (cid : Fin model.nclients) : Option Hold :=
  (w.clients cid).hold (w.response cid)

/-- What holds between the clients, their requests and the answers in every run. -/
structure Sound (w : World model) : Prop where
  versioned : w.db.WellVersioned
  wellFormed : ∀ cid, (w.clients cid).WellFormed model cid
  /-- Requests without a response are current. -/
  current : ∀ req ∈ w.sent, w.responses req.serial = none →
    ∃ cid, (w.clients cid).request = some req
  /-- Serials to come have no response. -/
  fresh : ∀ cid k, w.responses ((w.clients cid).serial + (k + 1) * serialStep) = none
  expected : ∀ cid, ∀ resp ∈ w.response cid, (w.clients cid).Expects resp
  keys : ∀ key cell, w.db.db.find? key = some cell → ∃ gid < model.ngroups, IsKeyOf gid key
  held : ∀ cid, ∀ hold ∈ w.hold cid, Held w.db (w.clients cid).gid (w.clients cid).value hold
  owned : ∀ gid, Free w.db gid ∨ ∃ cid, (w.clients cid).gid = gid ∧ (w.hold cid).isSome = true

/-! ## Consequences -/

theorem request_serial {client : Client} {req : Request} (current : client.request = some req) :
    req.serial = client.serial := by
  unfold Client.request at current
  split at current
  · contradiction
  all_goals
    obtain rfl := Option.some.inj current
    rfl

theorem phase_of_hold {client : Client} {response : Option Response} {hold : Hold}
    (holds : client.hold response = some hold) : client.phase ≠ .delay := by
  intro delay
  rw [Client.hold.eq_def, delay] at holds
  cases response <;> contradiction

/-- A client that holds a lock has its value in it. -/
theorem Sound.value_of_hold {w : World model} (sound : w.Sound) {cid : Fin model.nclients}
    {hold : Hold} (holds : w.hold cid = some hold) :
    IsValueOf cid (w.clients cid).value :=
  ((sound.wellFormed cid).picked (phase_of_hold holds)).2.1

/-- Two clients do not hold one lock. -/
theorem Sound.hold_unique {w : World model} (sound : w.Sound) {cid other : Fin model.nclients}
    {hold otherHold : Hold} (holds : w.hold cid = some hold)
    (otherHolds : w.hold other = some otherHold)
    (same : (w.clients cid).gid = (w.clients other).gid) : cid = other := by
  have lock := (sound.held cid hold holds).lock
  have otherLock := (sound.held other otherHold otherHolds).lock
  rw [same, otherLock] at lock
  have values : (w.clients other).value = (w.clients cid).value :=
    congrArg Vv.value (Option.some.inj lock)
  have mine := sound.value_of_hold holds
  rw [← values] at mine
  exact Fin.ext (mine.inj (sound.value_of_hold otherHolds))

/-- A free lock is held by nobody. -/
theorem Sound.hold_eq_none {w : World model} (sound : w.Sound) {cid : Fin model.nclients}
    (absent : w.db.db.find? (makeLockKey (w.clients cid).gid) = none) : w.hold cid = none := by
  cases holds : w.hold cid with
  | none => rfl
  | some hold =>
      rw [(sound.held cid hold holds).lock] at absent
      contradiction

/-- A lock that is not free is held. -/
theorem Sound.exists_hold {w : World model} (sound : w.Sound) {gid : Nat} {cell : Vv}
    (present : w.db.db.find? (makeLockKey gid) = some cell) :
    ∃ cid hold, (w.clients cid).gid = gid ∧ w.hold cid = some hold ∧
      cell.value = (w.clients cid).value := by
  rcases sound.owned gid with free | ⟨cid, rfl, holds⟩
  · rw [free.1] at present
    contradiction
  · obtain ⟨hold, holds⟩ := Option.isSome_iff_exists.mp holds
    have lock := (sound.held cid hold holds).lock
    rw [present] at lock
    exact ⟨cid, hold, rfl, holds, congrArg Vv.value (Option.some.inj lock)⟩

/-- The serials of different clients differ. -/
theorem Sound.serial_ne {w : World model} (sound : w.Sound) {cid other : Fin model.nclients}
    (different : other ≠ cid) (k : Nat) :
    (w.clients other).serial + k * serialStep ≠ (w.clients cid).serial := by
  intro same
  have mods := congrArg (· % serialStep) same
  simp only [Nat.add_mul_mod_self_right, (sound.wellFormed _).serial_mod] at mods
  exact different (Fin.ext mods)

theorem sound_start (model : LockseqModel) : (start model).Sound where
  versioned := PancyDb.wellVersioned_empty
  wellFormed cid := by
    refine ⟨rfl, ?_, fun picked => absurd rfl picked, ?_, ?_⟩
    · exact Nat.mod_eq_of_lt (Nat.lt_of_lt_of_le cid.isLt model.nclients_le)
    · intro n atWrite
      contradiction
    · intro n atClear
      contradiction
  current req member := by
    cases member
  fresh cid k := rfl
  expected cid resp answered := by
    cases answered
  keys key cell found := by
    cases found
  held cid hold holds := by
    cases holds
  owned gid := by
    refine Or.inl ⟨rfl, [0], 0, by simp, Nat.zero_le _, [0], 0, Nat.zero_le _, by simp, ?_⟩
    intro vid
    simp only [Nat.not_lt_zero, if_false, and_false]
    rfl

end World

end DoomDraft.Lockseq
