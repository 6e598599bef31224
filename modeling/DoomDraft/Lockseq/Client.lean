import DoomDraft.Browser.Wire
import DoomDraft.Foundation.Decimal
import DoomDraft.Foundation.Transition
import DoomDraft.Pancy.Database

/-!
# Lock-sequence clients

A client of `lockseq_model` locks a group of keys by compare-and-swap, overwrites
a sequence of values in it, removes what is left of a longer previous sequence, and
unlocks the group.

The clients run beside a linearizable database.  A request that has been sent may
arrive any number of times and at any time; its serial number is executed when it
arrives first, and every later arrival is answered by the first response.  An
answer may be lost.  Which replica is asked decides only whether an answer comes in
time, so it is not part of the state.
-/

namespace DoomDraft.Lockseq

open Browser Pancy

/-- `max_sequence_length_`. -/
def maxSequenceLength : Nat := 100

/-- `max_clients`. -/
def maxClients : Nat := 4096

/-- `serial_step`. -/
def serialStep : Nat := 4096

/-! ## Keys and values -/

/-- `make_client_key`. -/
def makeClientKey (cid : Nat) : ByteString :=
  byte 'c' :: decimal cid

/-- `make_group_key`. -/
def makeGroupKey (gid : Nat) : ByteString :=
  byte 'g' :: decimal gid

/-- `make_lock_key`. -/
def makeLockKey (gid : Nat) : ByteString :=
  makeGroupKey gid ++ ascii ['/', 'l', 'o', 'c', 'k']

/-- `make_value_key`. -/
def makeValueKey (gid vid : Nat) : ByteString :=
  makeGroupKey gid ++ ascii ['/', 'v'] ++ (decimal vid).leftpad 3 (byte '0')

/-- `client_key_prefix` in `client`. -/
def clientKeyPrefix (cid : Nat) : ByteString :=
  makeClientKey cid ++ [byte ' ']

/-- `uniform_hex(7)`, by the random number that it draws. -/
def uniformHex (random : Nat) : ByteString :=
  [6, 5, 4, 3, 2, 1, 0].map fun i => hexDigit (random / 16 ^ i % 16)

/-! ## One client -/

/-- Where the coroutine of a client is. -/
inductive Phase where
  /-- In the delay before a group is picked. -/
  | delay
  | lock
  | write (n : Nat)
  | clear (n : Nat)
  | unlock
  deriving DecidableEq

/-- Whether the coroutine of a client still runs. -/
inductive Status where
  | running
  | stopped
  /-- It has thrown an error code. -/
  | thrown (errcode : Errc)
  deriving DecidableEq

/-- The local variables of `client`. -/
structure Client where
  cid : Nat
  serial : Nat
  phase : Phase
  gid : Nat
  value : ByteString
  nvalues : Nat
  lockVersion : Int
  tries : Nat
  /-- The request of this try has been sent, and no answer has come yet. -/
  waiting : Bool
  status : Status
  deriving DecidableEq

namespace Client

/-- A client before its first delay. -/
def start (cid : Nat) : Client where
  cid := cid
  serial := cid
  phase := .delay
  gid := 0
  value := []
  nvalues := 0
  lockVersion := 0
  tries := 0
  waiting := false
  status := .running

/-- Enter a phase, or the next step of one, whose requests have a new serial. -/
def enter (self : Client) (phase : Phase) : Client :=
  { self with serial := self.serial + serialStep, phase := phase, tries := 0, waiting := false }

/-- Pick a group, a value and a sequence length. -/
def pick (self : Client) (gid random nvalues : Nat) : Client :=
  { self with
    gid := gid
    value := clientKeyPrefix self.cid ++ uniformHex random
    nvalues := nvalues
    lockVersion := 0 }.enter .lock

/-- The request of the current step. -/
def request (self : Client) : Option Request :=
  match self.phase with
  | .delay => none
  | .lock => some (.cas
      { serial := self.serial, key := makeLockKey self.gid, expected := [], desired := self.value })
  | .write n => some (.put
      { serial := self.serial, key := makeValueKey self.gid n, value := self.value })
  | .clear n => some (.remove { serial := self.serial, key := makeValueKey self.gid n })
  | .unlock => some (.remove
      { serial := self.serial, key := makeLockKey self.gid, versionMatch := self.lockVersion })

/-- The next try of the current step. -/
def again (self : Client) : Client :=
  { self with tries := self.tries + 1, waiting := false }

/-- The client stops with an error. -/
def throw (self : Client) (errcode : Errc) : Client :=
  { self with waiting := false, status := .thrown errcode }

/-- The loop of the clear phase at `n`. -/
def clearFrom (self : Client) (n : Nat) : Client :=
  if n < maxSequenceLength then self.enter (.clear n) else self.enter .unlock

/-- The loop of the write phase at `n`. -/
def writeFrom (self : Client) (n : Nat) : Client :=
  if n ≠ self.nvalues then self.enter (.write n) else self.clearFrom n

/-- The lock has been obtained. -/
def locked (self : Client) (lockVersion : Int) : Client :=
  { self with lockVersion := lockVersion }.writeFrom 0

/-- An answer in the lock phase. -/
def lockAnswer (self : Client) (resp : ModResponse) : Client :=
  if resp.errcode = .ok then self.locked resp.version
  else if resp.errcode ≠ .noMatch then self.throw resp.errcode
  else if resp.actual = self.value ∧ 0 < self.tries then self.locked resp.version
  else if ¬ clientKeyPrefix self.cid <+: resp.actual then self.throw .noMatch
  else self.again

/-- An answer in the write phase. -/
def writeAnswer (self : Client) (n : Nat) (resp : ModResponse) : Client :=
  if resp.errcode ≠ .ok then self.throw resp.errcode else self.writeFrom (n + 1)

/-- An answer in the clear phase. -/
def clearAnswer (self : Client) (n : Nat) (resp : ModResponse) : Client :=
  if resp.errcode ≠ .ok ∧ resp.errcode ≠ .notFound then self.throw resp.errcode
  else if resp.errcode = .notFound ∧ self.tries = 0 then self.enter .unlock
  else self.clearFrom (n + 1)

/-- An answer in the unlock phase. -/
def unlockAnswer (self : Client) (resp : ModResponse) : Client :=
  if resp.errcode ≠ .ok ∧ self.tries = 0 then self.throw resp.errcode
  else { self with phase := .delay, waiting := false }

/-- The client gets the answer to its request.  A response of another type counts
as no response. -/
def answer (self : Client) (resp : Response) : Client :=
  match self.phase, resp with
  | .lock, .cas resp => self.lockAnswer resp
  | .write n, .put resp => self.writeAnswer n resp
  | .clear n, .remove resp => self.clearAnswer n resp
  | .unlock, .remove resp => self.unlockAnswer resp
  | _, _ => self.again

end Client

/-! ## All clients beside the database -/

/-- `lockseq_model`: its numbers of clients and of groups. -/
structure LockseqModel where
  nclients : Nat
  ngroups : Nat
  /-- `set_nclients` throws otherwise. -/
  nclients_le : nclients ≤ maxClients
  ngroups_pos : 0 < ngroups
  /-- The number is of type `unsigned`. -/
  ngroups_lt : ngroups < 2 ^ 32

/-- The clients, their requests and the database. -/
structure World (model : LockseqModel) where
  clients : Fin model.nclients → Client
  /-- The requests that have been sent. -/
  sent : List Request
  /-- The first response to each serial that has been executed. -/
  responses : Nat → Option Response
  db : PancyDb

/-- What may happen next. -/
inductive Action (model : LockseqModel) where
  /-- A client picks a group, a value and a sequence length. -/
  | pick (cid : Fin model.nclients) (gid random nvalues : Nat)
  /-- A client sends its request. -/
  | send (cid : Fin model.nclients)
  /-- A request that has been sent arrives. -/
  | arrive (req : Request)
  /-- A client gets the answer to its request. -/
  | answer (cid : Fin model.nclients)
  /-- The attempt to get an answer times out, or the answer is a redirection. -/
  | noAnswer (cid : Fin model.nclients)
  /-- A client stops. -/
  | stop (cid : Fin model.nclients)

namespace World

variable {model : LockseqModel}

/-- Nothing has been sent. -/
def start (model : LockseqModel) : World model where
  clients := fun cid => Client.start cid
  sent := []
  responses := fun _ => none
  db := PancyDb.empty

/-- Replace a client. -/
def set (w : World model) (cid : Fin model.nclients) (client : Client) : World model :=
  { w with clients := Function.update w.clients cid client }

/-- A serial is executed when it arrives first. -/
def execute (w : World model) (req : Request) : World model :=
  match w.responses req.serial with
  | some _ => w
  | none =>
      { w with
        db := (w.db.processReq req).1
        responses := Function.update w.responses req.serial (some (w.db.processReq req).2) }

/-- One action; `none` when the action is not enabled. -/
def step (w : World model) : Action model → Option (World model)
  | .pick cid gid random nvalues =>
      let client := w.clients cid
      if client.status = .running ∧ client.phase = .delay ∧ gid < model.ngroups ∧
          random < 2 ^ 28 ∧ 1 ≤ nvalues ∧ nvalues ≤ maxSequenceLength then
        some (w.set cid (client.pick gid random nvalues))
      else none
  | .send cid =>
      let client := w.clients cid
      if client.status = .running ∧ client.waiting = false then
        client.request.map fun req =>
          { w.set cid { client with waiting := true } with sent := w.sent ++ [req] }
      else none
  | .arrive req => if req ∈ w.sent then some (w.execute req) else none
  | .answer cid =>
      let client := w.clients cid
      if client.status = .running ∧ client.waiting = true then
        (w.responses client.serial).map fun resp => w.set cid (client.answer resp)
      else none
  | .noAnswer cid =>
      let client := w.clients cid
      if client.status = .running ∧ client.waiting = true then some (w.set cid client.again)
      else none
  | .stop cid =>
      let client := w.clients cid
      if client.status = .running then some (w.set cid { client with status := .stopped }) else none

/-- What an action does where it is enabled. -/
inductive Steps (w : World model) : Action model → World model → Prop
  | pick (cid : Fin model.nclients) (gid random nvalues : Nat)
      (idle : (w.clients cid).phase = .delay) (gidLt : gid < model.ngroups)
      (positive : 1 ≤ nvalues) (short : nvalues ≤ maxSequenceLength) :
      Steps w (.pick cid gid random nvalues)
        (w.set cid ((w.clients cid).pick gid random nvalues))
  | send (cid : Fin model.nclients) (req : Request)
      (isRequest : (w.clients cid).request = some req) :
      Steps w (.send cid)
        { w.set cid { w.clients cid with waiting := true } with sent := w.sent ++ [req] }
  | arrive (req : Request) (sent : req ∈ w.sent) : Steps w (.arrive req) (w.execute req)
  | answer (cid : Fin model.nclients) (resp : Response)
      (running : (w.clients cid).status = .running)
      (answered : w.responses (w.clients cid).serial = some resp) :
      Steps w (.answer cid) (w.set cid ((w.clients cid).answer resp))
  | noAnswer (cid : Fin model.nclients) : Steps w (.noAnswer cid) (w.set cid (w.clients cid).again)
  | stop (cid : Fin model.nclients) :
      Steps w (.stop cid) (w.set cid { w.clients cid with status := .stopped })

theorem steps_of_step {w next : World model} {action : Action model}
    (stepped : w.step action = some next) : w.Steps action next := by
  cases action with
  | pick cid gid random nvalues =>
      simp only [step] at stepped
      split at stepped
      · rename_i guard
        obtain rfl := Option.some.inj stepped
        obtain ⟨-, idle, gidLt, -, positive, short⟩ := guard
        exact .pick cid gid random nvalues idle gidLt positive short
      · contradiction
  | send cid =>
      simp only [step] at stepped
      split at stepped
      · obtain ⟨req, isRequest, rfl⟩ := Option.map_eq_some_iff.mp stepped
        exact .send cid req isRequest
      · contradiction
  | arrive req =>
      simp only [step] at stepped
      split at stepped
      · rename_i sent
        obtain rfl := Option.some.inj stepped
        exact .arrive req sent
      · contradiction
  | answer cid =>
      simp only [step] at stepped
      split at stepped
      · rename_i guard
        obtain ⟨resp, answered, rfl⟩ := Option.map_eq_some_iff.mp stepped
        exact .answer cid resp guard.1 answered
      · contradiction
  | noAnswer cid =>
      simp only [step] at stepped
      split at stepped
      · obtain rfl := Option.some.inj stepped
        exact .noAnswer cid
      · contradiction
  | stop cid =>
      simp only [step] at stepped
      split at stepped
      · obtain rfl := Option.some.inj stepped
        exact .stop cid
      · contradiction

/-- Perform actions in order. -/
def perform (w : World model) (actions : List (Action model)) : Option (World model) :=
  Transition.perform step w actions

end World

end DoomDraft.Lockseq
