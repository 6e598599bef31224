import DoomDraft.Lockseq.Preservation

/-!
# Clients that throw

Of the five `throw` statements of `client` only the last one of the lock phase can
be reached.  Its comment says that a client must not wait for itself, but its test
is the other way round: it is taken when the lock is held by another client.
-/

namespace DoomDraft.Lockseq

open Pancy

namespace Client

@[simp]
theorem status_enter (self : Client) (phase : Phase) : (self.enter phase).status = self.status :=
  rfl

@[simp]
theorem status_again (self : Client) : self.again.status = self.status :=
  rfl

@[simp]
theorem status_clearFrom (self : Client) (n : Nat) : (self.clearFrom n).status = self.status := by
  unfold clearFrom
  split <;> rfl

@[simp]
theorem status_writeFrom (self : Client) (n : Nat) : (self.writeFrom n).status = self.status := by
  unfold writeFrom
  split
  · rfl
  · exact status_clearFrom self n

@[simp]
theorem status_locked (self : Client) (lockVersion : Int) :
    (self.locked lockVersion).status = self.status :=
  status_writeFrom _ 0

end Client

namespace World

variable {model : LockseqModel} {w : World model}

/-- No client has thrown. -/
def Unthrown (w : World model) : Prop :=
  ∀ cid errcode, (w.clients cid).status ≠ .thrown errcode

/-- Where a client in the lock phase gets an answer, the compare-and-swap was
executed while the lock was free. -/
def LocksFree (w : World model) : Action model → Prop
  | .answer cid => (w.clients cid).phase = .lock → ∀ resp ∈ w.response cid, resp.errcode = .ok
  | _ => True

instance (w : World model) : ∀ action, Decidable (w.LocksFree action)
  | .answer cid => inferInstanceAs (Decidable ((w.clients cid).phase = .lock →
      ∀ resp ∈ w.response cid, resp.errcode = .ok))
  | .pick _ _ _ _ | .send _ | .arrive _ | .noAnswer _ | .stop _ => isTrue trivial

/-- An answer makes a client throw exactly in the lock phase, when the lock was not
free. -/
theorem Sound.status_answer (sound : w.Sound) {cid : Fin model.nclients} {resp : Response}
    (running : (w.clients cid).status = .running) (answered : w.response cid = some resp) :
    (∀ errcode, ((w.clients cid).answer resp).status ≠ .thrown errcode) ↔
      ((w.clients cid).phase = .lock → resp.errcode = .ok) := by
  have expected := sound.expected cid resp answered
  have old := sound.wellFormed cid
  unfold Client.answer
  split
  · rename_i mod phase
    simp only [Client.Expects, phase] at expected
    have picked := old.picked (by simp [phase])
    simp only [phase, true_implies, Response.errcode]
    rcases expected with ok | ⟨noMatch, other, different, theirs⟩
    · simp [Client.lockAnswer, ok, running]
    · have notMine : mod.actual ≠ (w.clients cid).value := by
        intro same
        rw [same] at theirs
        exact different ((theirs.inj picked.2.1).trans old.cid_eq.symm)
      have notPrefix := theirs.not_isPrefix different.symm
      simp [Client.lockAnswer, Client.throw, noMatch, notMine, notPrefix]
  · rename_i n mod phase
    simp only [Client.Expects, phase] at expected
    simp [Client.writeAnswer, expected, running, phase]
  · rename_i n mod phase
    simp only [Client.Expects, phase] at expected
    have noThrow : ¬ (mod.errcode ≠ .ok ∧ mod.errcode ≠ .notFound) := by tauto
    rw [Client.clearAnswer, if_neg noThrow]
    split <;> simp [running, phase]
  · rename_i mod phase
    simp only [Client.Expects, phase] at expected
    simp [Client.unlockAnswer, expected, running, phase]
  · rename_i other _ _ notCas _ _ _
    refine iff_of_true (fun errcode => ?_) fun phase => ?_
    · rw [Client.status_again, running]
      exact Status.noConfusion
    · -- in the lock phase there is no response of another type
      cases other with
      | cas mod => exact absurd rfl (notCas mod phase)
      | redirection | get | put | remove => simp [Client.Expects, phase] at expected

theorem unthrown_set_iff (unthrown : w.Unthrown) {cid : Fin model.nclients} {client : Client}
    {sent : List Request} :
    ({ w.set cid client with sent := sent } : World model).Unthrown ↔
      ∀ errcode, client.status ≠ .thrown errcode := by
  constructor
  · intro after errcode
    have here := after cid errcode
    rwa [show ({ w.set cid client with sent := sent } : World model).clients cid = client from
      Function.update_self ..] at here
  · intro mine other errcode
    change (Function.update w.clients cid client other).status ≠ _
    rw [Function.update_apply]
    split
    · exact mine errcode
    · exact unthrown other errcode

/-- A step keeps all clients from throwing exactly if it meets the condition. -/
theorem Sound.unthrown_step_iff (sound : w.Sound) (unthrown : w.Unthrown) {action : Action model}
    {next : World model} (stepped : w.step action = some next) :
    next.Unthrown ↔ w.LocksFree action := by
  cases steps_of_step stepped with
  | pick cid | send cid | noAnswer cid =>
      exact iff_of_true ((unthrown_set_iff unthrown).mpr (unthrown cid)) trivial
  | arrive req =>
      have clients : (w.execute req).clients = w.clients := by
        unfold execute
        split <;> rfl
      exact iff_of_true (fun cid => clients.symm ▸ unthrown cid) trivial
  | answer cid resp running answered =>
      refine (unthrown_set_iff unthrown).trans ((sound.status_answer running answered).trans ?_)
      refine imp_congr_right fun _ => ⟨?_, fun free => free resp answered⟩
      intro ok other isAnswer
      obtain rfl := Option.some.inj (answered.symm.trans isAnswer)
      exact ok
  | stop cid =>
      refine iff_of_true ((unthrown_set_iff unthrown).mpr fun errcode => ?_) trivial
      exact Status.noConfusion

/-- At no point of a run has a client thrown exactly if every client that got an
answer in the lock phase has got the lock. -/
theorem unthrown_iff {actions : List (Action model)} {final : World model}
    (run : (start model).perform actions = some final) :
    (∀ t middle, (start model).perform (actions.take t) = some middle → middle.Unthrown) ↔
      Transition.Permitted step LocksFree (start model) actions := by
  have unthrownStart : (start model).Unthrown := fun cid errcode => Status.noConfusion
  exact (Transition.permitted_iff_forall_take (fun _ _ _ sound stepped => sound.step stepped)
    (fun _ _ _ sound unthrown stepped => sound.unthrown_step_iff unthrown stepped)
    (sound_start model) unthrownStart run).symm

/-- Two clients and one group. -/
def twoClients : LockseqModel where
  nclients := 2
  ngroups := 1
  nclients_le := by decide
  ngroups_pos := by decide
  ngroups_lt := by decide

/-- These clients are written as numerals. -/
instance clientLiteral : NeZero 2 := inferInstance

/-- The requests of the clients of `twoClients` for the lock. -/
def lockRequest (cid : Fin 2) : Request :=
  .cas ⟨cid + serialStep, makeLockKey 0, [], clientKeyPrefix cid ++ uniformHex 0, anyVersion⟩

/-- One client gets the lock, while the answer to its first try is lost. -/
def uncontended : List (Action twoClients) :=
  [.pick (0 : Fin 2) 0 0 1, .send (0 : Fin 2), .arrive (lockRequest 0), .noAnswer (0 : Fin 2),
    .send (0 : Fin 2), .arrive (lockRequest 0), .answer (0 : Fin 2)]

/-- The other client asks for the lock, too. -/
def contended : List (Action twoClients) :=
  uncontended ++ [.pick (1 : Fin 2) 0 0 1, .send (1 : Fin 2), .arrive (lockRequest 1),
    .answer (1 : Fin 2)]

theorem unthrown_iff_uncontended : ∃ final, (start twoClients).perform uncontended = some final ∧
    ∀ t middle, (start twoClients).perform (uncontended.take t) = some middle →
      middle.Unthrown := by
  have enabled : ((start twoClients).perform uncontended).isSome = true := by decide +kernel
  obtain ⟨final, run⟩ := Option.isSome_iff_exists.mp enabled
  exact ⟨final, run, (unthrown_iff run).mpr (by decide +kernel)⟩

/-- The client that asks for a lock that another client holds throws. -/
theorem contended_throws :
    ((start twoClients).perform contended).any (fun final =>
      (final.clients (1 : Fin 2)).status = .thrown .noMatch) = true ∧
    ¬ ∀ (model : LockseqModel) (actions : List (Action model)) (final : World model),
      (start model).perform actions = some final → final.Unthrown := by
  have throws : ((start twoClients).perform contended).any (fun final =>
      (final.clients (1 : Fin 2)).status = .thrown .noMatch) = true := by
    decide +kernel
  refine ⟨throws, fun always => ?_⟩
  obtain ⟨final, run, thrown⟩ := (Option.any_eq_true _ _).mp throws
  exact always twoClients contended final run (1 : Fin 2) .noMatch (of_decide_eq_true thrown)

end World

end DoomDraft.Lockseq
