import DoomDraft.Pancy.Message
import Mathlib.Data.List.Basic

/-!
# Submitting a put

`submit_put` sends one request, under one serial, to one replica after another
until it is answered with success.  Two places decide which replica is next: a
redirection writes it in `receive_response`, and the loop steps on to the next
index when an attempt has brought no response.  `cot::attempt` gives an empty
result both on a timeout and on a redirection, so the loop steps on after a
redirection as well.
-/

namespace DoomDraft.Server

open Pancy

/-- `http_client_model`. -/
structure HttpClientModel where
  nreplicas : Nat
  leader : Nat
  nextSerialOffset : Nat

/-- `receive_response<put_response>`: the replica index after it and what it
returns, given the response that has arrived. -/
def receiveResponse (replicaid : Nat) : Response → Nat × Option ModResponse
  | .redirection resp => (resp.redirection, none)
  | .put resp => (replicaid, some resp)
  | .get _ | .cas _ | .remove _ => (replicaid, none)

/-- `cot::attempt` of `receive_response`, given the response that arrives before
the timeout. -/
def attemptReceive (replicaid : Nat) : Option Response → Nat × Option ModResponse
  | none => (replicaid, none)
  | some resp => receiveResponse replicaid resp

/-- What a call of `submit_put` comes to: the version that it returns, the model
after it, and the requests that it has sent, each to its replica. -/
structure Submission where
  version : Int
  client : HttpClientModel
  sent : List (Nat × PutRequest)

/-- The submission with a request sent before its own. -/
def Submission.sentBefore (replica : Nat) (req : PutRequest) (later : Submission) : Submission :=
  { later with sent := (replica, req) :: later.sent }

/-- The responses that arrive in time, for each attempt and the replica that it
goes to. -/
abbrev Replies := Nat → Nat → Option Response

namespace HttpClientModel

/-- `kMyCid`. -/
def kMyCid : Nat := 0

/-- `serial_step`. -/
def serialStep : Nat := 4096

/-- `kMaxAttempts`. -/
def kMaxAttempts : Nat := 12

/-- The loop of `submit_put` with `remaining` attempts left after `tries`. -/
def submitLoop (self : HttpClientModel) (replies : Replies) (req : PutRequest) :
    Nat → Nat → Nat → Submission
  | 0, _, _ => ⟨0, self, []⟩
  | remaining + 1, tries, replica =>
      let (target, resp) := attemptReceive replica (replies tries replica)
      match resp with
      | none =>
          (submitLoop self replies req remaining (tries + 1)
            ((target + 1) % self.nreplicas)).sentBefore replica req
      | some resp =>
          if resp.errcode = .ok then
            ⟨resp.version, { self with leader := target }, [(replica, req)]⟩
          else
            (submitLoop self replies req remaining (tries + 1) target).sentBefore replica req

/-- `submit_put`. -/
def submitPut (self : HttpClientModel) (replies : Replies) (key value : ByteString) :
    Submission :=
  let off := self.nextSerialOffset + 1
  let serial := kMyCid + off * serialStep
  submitLoop { self with nextSerialOffset := off } replies
    { serial := serial, key := key, value := value } kMaxAttempts 0 self.leader

end HttpClientModel

namespace Submission

/-- The replica that an attempt has gone to. -/
def target? (submission : Submission) (tries : Nat) : Option Nat :=
  (submission.sent.map Prod.fst)[tries]?

/-- An attempt has been answered by a redirection. -/
def Redirected (submission : Submission) (replies : Replies) (tries : Nat) : Prop :=
  ∃ replica ∈ submission.target? tries, ∃ resp, replies tries replica = some (.redirection resp)

/-- Behind each attempt but the last one of `attempts` that a redirection has
answered, the next attempt has gone to the leader, and the submission has
returned the leader's version. -/
def FollowsRedirects (submission : Submission) (replies : Replies) (attempts leader : Nat)
    (version : Int) : Prop :=
  ∀ i, i + 1 < attempts → submission.Redirected replies i →
    submission.target? (i + 1) = some leader ∧ submission.version = version

theorem followsRedirects_sentBefore_iff {later : Submission} {replica : Nat} {req : PutRequest}
    {replies : Replies} {attempts leader : Nat} {version : Int} :
    (later.sentBefore replica req).FollowsRedirects replies (attempts + 1) leader version ↔
      (0 < attempts → (∃ resp, replies 0 replica = some (.redirection resp)) →
        later.target? 0 = some leader ∧ later.version = version) ∧
      later.FollowsRedirects (fun tries => replies (tries + 1)) attempts leader version := by
  constructor
  · intro follows
    refine ⟨fun more redirected => ?_, fun i within redirected => ?_⟩
    · exact follows 0 (Nat.succ_lt_succ more) ⟨replica, rfl, redirected⟩
    · exact follows (i + 1) (Nat.succ_lt_succ within) redirected
  · rintro ⟨first, rest⟩ i within redirected
    cases i with
    | zero =>
        obtain ⟨r, atR, answer⟩ := redirected
        obtain rfl : replica = r := Option.some.inj atR
        exact first (Nat.lt_of_succ_lt_succ within) answer
    | succ i => exact rest i (Nat.lt_of_succ_lt_succ within) redirected

end Submission

namespace Replies

/-- The leader answers each put that it is sent with success, and every other
replica redirects to the leader or does not answer in time. -/
structure Follow (replies : Replies) (leader : Nat) (version : Int) : Prop where
  answered : ∀ tries, ∃ resp, replies tries leader = some (.put resp) ∧ resp.errcode = .ok ∧
    resp.version = version
  others : ∀ tries replica, replica ≠ leader → replies tries replica = none ∨
    ∃ resp, replies tries replica = some (.redirection resp) ∧ resp.redirection = leader

end Replies

/-- How many replicas are tried in turn before the leader is. -/
def turnsTo (n leader replica : Nat) : Nat :=
  if replica ≤ leader then leader - replica else leader + n - replica

theorem turnsTo_self (n leader : Nat) : turnsTo n leader leader = 0 := by
  simp [turnsTo]

theorem succ_mod_ne {n leader : Nat} (several : 2 ≤ n) (leaderLt : leader < n) :
    (leader + 1) % n ≠ leader := by
  rcases Nat.lt_or_ge (leader + 1) n with less | last
  · rw [Nat.mod_eq_of_lt less]
    omega
  · obtain rfl : n = leader + 1 := by omega
    rw [Nat.mod_self]
    omega

theorem turnsTo_succ_mod {n leader replica : Nat} (leaderLt : leader < n) (replicaLt : replica < n)
    (other : replica ≠ leader) :
    turnsTo n leader replica = turnsTo n leader ((replica + 1) % n) + 1 := by
  rcases Nat.lt_or_ge (replica + 1) n with less | last
  · rw [Nat.mod_eq_of_lt less]
    unfold turnsTo
    split <;> split <;> omega
  · obtain rfl : n = replica + 1 := by omega
    rw [Nat.mod_self]
    unfold turnsTo
    split <;> split <;> omega

namespace HttpClientModel

variable {self : HttpClientModel} {replies : Replies} {req : PutRequest} {leader : Nat}
  {version : Int}

theorem sent_submitLoop_leader (follow : replies.Follow leader version) (remaining tries : Nat) :
    (self.submitLoop replies req (remaining + 1) tries leader).sent = [(leader, req)] := by
  obtain ⟨resp, answered, ok, -⟩ := follow.answered tries
  simp only [submitLoop, answered, attemptReceive, receiveResponse, if_pos ok]

/-- An attempt without a response, or with a redirection, and the attempts
behind it. -/
theorem submitLoop_succ {remaining tries replica next : Nat}
    (noResponse : attemptReceive replica (replies tries replica) = (next, none)) :
    self.submitLoop replies req (remaining + 1) tries replica =
      (self.submitLoop replies req remaining (tries + 1)
        ((next + 1) % self.nreplicas)).sentBefore replica req := by
  simp only [submitLoop, noResponse]

theorem target?_submitLoop_zero (remaining tries replica : Nat) :
    (self.submitLoop replies req (remaining + 1) tries replica).target? 0 = some replica := by
  unfold submitLoop
  dsimp only
  split
  · rfl
  · split <;> rfl

/-- The leader answers with success, so the attempt at it is the last one. -/
theorem followsRedirects_submitLoop_leader (follow : replies.Follow leader version)
    (remaining tries : Nat) :
    (self.submitLoop replies req (remaining + 1) tries leader).FollowsRedirects
      (fun i => replies (tries + i)) (remaining + 1) leader version := by
  obtain ⟨resp, answered, -⟩ := follow.answered tries
  rintro i - ⟨replica, atReplica, redirection, redirected⟩
  rw [Submission.target?, sent_submitLoop_leader follow] at atReplica
  cases i with
  | zero =>
      obtain rfl := Option.some.inj atReplica
      exact absurd (answered.symm.trans redirected) (by simp)
  | succ i => simp at atReplica

/-- Behind a redirection the loop steps over the leader, so the redirection is
followed only if no attempt is left. -/
theorem followsRedirects_submitLoop_redirected {redirection : RedirectionResponse}
    {remaining tries replica : Nat}
    (redirected : replies tries replica = some (.redirection redirection))
    (toLeader : redirection.redirection = leader) (several : 2 ≤ self.nreplicas)
    (leaderLt : leader < self.nreplicas) :
    (self.submitLoop replies req (remaining + 1) tries replica).FollowsRedirects
      (fun i => replies (tries + i)) (remaining + 1) leader version ↔ remaining = 0 := by
  have stepped : self.submitLoop replies req (remaining + 1) tries replica = _ :=
    submitLoop_succ
      (show attemptReceive replica _ = (leader, none) by rw [redirected, ← toLeader]; rfl)
  rw [stepped, Submission.followsRedirects_sentBefore_iff]
  cases remaining with
  | zero => simp [Submission.FollowsRedirects]
  | succ remaining =>
      refine iff_of_false ?_ (Nat.succ_ne_zero remaining)
      rintro ⟨followed, -⟩
      have next := (followed (Nat.succ_pos _) ⟨redirection, redirected⟩).1
      rw [target?_submitLoop_zero] at next
      exact succ_mod_ne several leaderLt (Option.some.inj next)

/-- From some attempt on, redirections are followed exactly when there are none
in the turns before the leader. -/
theorem followsRedirects_submitLoop_iff (follow : replies.Follow leader version)
    (leaderLt : leader < self.nreplicas) (remaining tries : Nat) {replica : Nat}
    (replicaLt : replica < self.nreplicas) :
    (self.submitLoop replies req remaining tries replica).FollowsRedirects
        (fun i => replies (tries + i)) remaining leader version ↔
      ∀ i, i + 1 < remaining → i < turnsTo self.nreplicas leader replica →
        replies (tries + i) ((replica + i) % self.nreplicas) = none := by
  induction remaining generalizing tries replica with
  | zero => simp [Submission.FollowsRedirects]
  | succ remaining ih =>
      by_cases other : replica = leader
      · subst other
        refine iff_of_true (followsRedirects_submitLoop_leader follow remaining tries) ?_
        simp [turnsTo_self]
      · have several : 2 ≤ self.nreplicas := by omega
        have turns := turnsTo_succ_mod leaderLt replicaLt other
        have start : replica % self.nreplicas = replica := Nat.mod_eq_of_lt replicaLt
        rcases follow.others tries replica other with silent | ⟨redirection, redirected, toLeader⟩
        · -- no answer: the loop steps on to the next replica
          have shift : ∀ i, tries + (i + 1) = tries + 1 + i := fun i => by omega
          have place : ∀ i, ((replica + 1) % self.nreplicas + i) % self.nreplicas =
              (replica + (i + 1)) % self.nreplicas := fun i => by
            rw [Nat.mod_add_mod, Nat.add_assoc, Nat.add_comm 1]
          have stepped : self.submitLoop replies req (remaining + 1) tries replica = _ :=
            submitLoop_succ (show attemptReceive replica _ = (replica, none) by rw [silent]; rfl)
          have later := @ih (tries + 1) ((replica + 1) % self.nreplicas)
            (Nat.mod_lt _ (by omega))
          have shifted : (fun i => replies (tries + (i + 1))) = fun i => replies (tries + 1 + i) :=
            funext fun i => congrArg replies (shift i)
          rw [stepped, Submission.followsRedirects_sentBefore_iff, shifted, later]
          simp only [Nat.add_zero, silent, reduceCtorEq, exists_false, false_imp_iff, implies_true,
            true_and]
          constructor
          · intro silentLater i within before
            cases i with
            | zero => rw [Nat.add_zero, Nat.add_zero, start, silent]
            | succ i =>
                rw [shift, ← place]
                exact silentLater i (by omega) (by omega)
          · intro silentAll i within before
            rw [← shift, place]
            exact silentAll (i + 1) (by omega) (by omega)
        · rw [followsRedirects_submitLoop_redirected redirected toLeader several leaderLt]
          constructor
          · intro last i within
            omega
          · intro silentAll
            by_contra more
            have first := silentAll 0 (by omega) (by omega)
            rw [Nat.add_zero, Nat.add_zero, start, redirected] at first
            contradiction

/-- Among replicas of which the leader answers with success and the others
redirect to it or do not answer, `submit_put` follows redirections to the leader
and returns the leader's version exactly when no attempt but the last is
redirected in the turns before the leader: then the replicas tried before it do
not answer. -/
theorem submitPut_followsRedirects_iff (self : HttpClientModel) (key value : ByteString)
    {replies : Replies} {leader : Nat} {version : Int} (startLt : self.leader < self.nreplicas)
    (leaderLt : leader < self.nreplicas) (follow : replies.Follow leader version) :
    (∀ i, i + 1 < kMaxAttempts → (self.submitPut replies key value).Redirected replies i →
      (self.submitPut replies key value).target? (i + 1) = some leader ∧
        (self.submitPut replies key value).version = version) ↔
    ∀ i, i + 1 < kMaxAttempts → i < turnsTo self.nreplicas leader self.leader →
      replies i ((self.leader + i) % self.nreplicas) = none := by
  have exactly := @followsRedirects_submitLoop_iff
    { self with nextSerialOffset := self.nextSerialOffset + 1 } replies
    ⟨kMyCid + (self.nextSerialOffset + 1) * serialStep, key, value, anyVersion⟩ leader version
    follow leaderLt kMaxAttempts 0 self.leader startLt
  simp only [Nat.zero_add] at exactly
  exact exactly

/-- The replicas of a cluster in which replica 1 leads and the others redirect. -/
def redirecting : Replies := fun _ replica =>
  if replica = 1 then some (.put ⟨4096, .ok, [], 0, 7⟩)
  else some (.redirection ⟨4096, .redirect, 1⟩)

theorem follow_redirecting : redirecting.Follow 1 7 where
  answered _ := ⟨_, rfl, rfl, rfl⟩
  others _ _ other := Or.inr ⟨_, if_neg other, rfl⟩

/-- The replicas of a cluster in which replica 1 leads and the others are down. -/
def silent : Replies := fun _ replica =>
  if replica = 1 then some (.put ⟨4096, .ok, [], 0, 7⟩) else none

theorem follow_silent : silent.Follow 1 7 where
  answered _ := ⟨_, rfl, rfl, rfl⟩
  others _ _ other := Or.inl (if_neg other)

/-- A model of three replicas that starts at replica 0. -/
def threeReplicas : HttpClientModel := ⟨3, 0, 0⟩

theorem submitPut_followsRedirects_iff_silent :
    (∀ i, i + 1 < kMaxAttempts → (threeReplicas.submitPut silent [] []).Redirected silent i →
      (threeReplicas.submitPut silent [] []).target? (i + 1) = some 1 ∧
        (threeReplicas.submitPut silent [] []).version = 7) ↔
    ∀ i, i + 1 < kMaxAttempts → i < turnsTo 3 1 0 → silent i ((0 + i) % 3) = none :=
  submitPut_followsRedirects_iff threeReplicas [] [] (by decide) (by decide) follow_silent

/-- With three replicas the redirections to replica 1 lead to replica 2, which
redirects again, until all attempts are used up. -/
theorem redirected_past_leader :
    (threeReplicas.submitPut redirecting [] []).target? 0 = some 0 ∧
      (threeReplicas.submitPut redirecting [] []).target? 1 = some 2 ∧
      (threeReplicas.submitPut redirecting [] []).version = 0 ∧
      ¬ ∀ (self : HttpClientModel) (key value : ByteString) (replies : Replies) (leader : Nat)
        (version : Int), self.leader < self.nreplicas → leader < self.nreplicas → 0 < version →
        replies.Follow leader version → ∀ i, i + 1 < kMaxAttempts →
        (self.submitPut replies key value).Redirected replies i →
        (self.submitPut replies key value).target? (i + 1) = some leader ∧
          (self.submitPut replies key value).version = version := by
  refine ⟨by decide, by decide, by decide, fun always => ?_⟩
  have next := always threeReplicas [] [] redirecting 1 7 (by decide) (by decide) (by decide)
    follow_redirecting 0 (by decide) ⟨0, rfl, _, rfl⟩
  exact absurd next.1 (by decide)

end HttpClientModel

end DoomDraft.Server
