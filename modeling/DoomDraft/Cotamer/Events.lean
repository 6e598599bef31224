import Mathlib.Logic.Function.Basic
import DoomDraft.Foundation.Transition

/-!
# Events, quorums and the coroutines that wait for them

An event body has a list of listeners: coroutines that wait for it, and quorums of which
it is a member.  A quorum counts the members that have triggered and triggers itself when
they are enough, which may trigger quorums above it in turn.  The driver keeps a queue of
events whose coroutines can run, and events that it triggers itself: timers and files.
This is one driver; coroutines of other drivers, and reference counts, are left out.
-/

namespace DoomDraft.Cotamer

universe u

/-- The number of an event body in the order of allocation. -/
abbrev EventId := Nat

/-- `event_handle`; the null handle counts as triggered. -/
abbrev EventHandle := Option EventId

/-- An entry of `listeners_`. -/
inductive Listener (τ : Type u) where
  | coroutine (t : τ)
  | quorum (q : EventId)
  deriving DecidableEq

/-- `event_body` and `quorum_event_body`. -/
structure EventBody (τ : Type u) where
  /-- `ef_quorum`. -/
  isQuorum : Bool := false
  /-- `ef_triggered`. -/
  triggered : Bool := false
  /-- `ef_want_interest`. -/
  wantInterest : Bool := false
  /-- How often `ef_interest` has been added to the flags. -/
  interest : Nat := 0
  /-- `listeners_`. -/
  listeners : List (Listener τ) := []
  /-- `members_`. -/
  members : List EventId := []
  /-- `triggered_`. -/
  count : Nat := 0
  /-- `quorum_`. -/
  quorum : Nat := 0
  /-- All members that the quorum has ever been given; the program does not keep them. -/
  given : List EventHandle := []
  deriving DecidableEq

/-- The event bodies of a program and the queue of its driver. -/
structure Events (τ : Type u) where
  body : EventId → EventBody τ
  /-- How many bodies have been allocated. -/
  next : EventId
  /-- `driver::asap_`. -/
  asap : List EventId

/-- What is left of a vector behind an element that its last element has replaced. -/
def swapBack {α : Type u} (rest : List α) : List α :=
  match rest.getLast? with
  | none => []
  | some last => last :: rest.dropLast

/-- Remove the first occurrence of an element by moving the last one there. -/
def swapRemove {α : Type u} [DecidableEq α] (x : α) : List α → List α
  | [] => []
  | y :: rest => if y = x then swapBack rest else y :: swapRemove x rest

/-- What `trigger_unlock` learns from the listeners of an event. -/
structure Scan (τ : Type u) where
  /-- The quorums among them. -/
  quorums : List EventId
  /-- The coroutines that stay. -/
  kept : List (Listener τ)
  /-- Whether the driver has to be told of the event. -/
  posts : Bool
  /-- The coroutine that the caller is to resume. -/
  coh : Option τ

namespace Events

variable {τ : Type u}

/-- The loop of `trigger_unlock` over `listeners_`; `drv` says whether the driver
triggers the event itself, in which case it takes one coroutine along. -/
def scanListeners (drv : Bool) : List (Listener τ) → Option τ → Scan τ
  | [], coh => ⟨[], [], false, coh⟩
  | .quorum q :: rest, coh =>
      let scan := scanListeners drv rest coh
      { scan with quorums := q :: scan.quorums }
  | .coroutine t :: rest, coh =>
      if drv then
        match coh with
        | none => scanListeners drv rest (some t)
        | some claimed =>
            let scan := scanListeners drv rest (some claimed)
            { scan with kept := .coroutine t :: scan.kept }
      else
        let scan := scanListeners drv rest coh
        { scan with kept := .coroutine t :: scan.kept, posts := true }

/-- Change one body. -/
def modify (self : Events τ) (e : EventId) (change : EventBody τ → EventBody τ) : Events τ :=
  { self with body := Function.update self.body e (change (self.body e)) }

/-- `add_listener_unlock`. -/
def addListener (self : Events τ) (e : EventId) (listener : Listener τ) : Events τ :=
  self.modify e fun body => { body with listeners := body.listeners ++ [listener] }

/-- Allocate a body. -/
def alloc (self : Events τ) (body : EventBody τ) : Events τ :=
  { self with body := Function.update self.body self.next body, next := self.next + 1 }

/-- `event_handle::triggered`. -/
def settled (self : Events τ) : EventHandle → Bool
  | none => true
  | some e => (self.body e).triggered

section Listeners

variable [DecidableEq τ]

/-- `remove_listener_unlock`. -/
def removeListener (self : Events τ) (e : EventId) (listener : Listener τ) : Events τ :=
  self.modify e fun body => { body with listeners := swapRemove listener body.listeners }

/-- The loop of `cull_members` over what is left of `members_`, with the members that
stay because they are still being triggered. -/
def cullLoop (q : EventId) : Nat → Events τ → List EventId → Events τ × List EventId
  | 0, self, rest => (self, rest)
  | _ + 1, self, [] => (self, [])
  | n + 1, self, m :: rest =>
      if (self.body m).triggered then
        let (self, kept) := cullLoop q n self rest
        (self, m :: kept)
      else cullLoop q n (self.removeListener m (.quorum q)) (swapBack rest)

/-- `cull_members`. -/
def cullMembers (self : Events τ) (q : EventId) : Events τ :=
  let members := (self.body q).members
  let (self, kept) := cullLoop q members.length self members
  self.modify q fun body => { body with members := kept }

/-- `trigger_unlock` until it unlocks: cull the members of a quorum, go through the
listeners, and set `ef_triggered`. -/
def markTriggered (drv : Bool) (self : Events τ) (e : EventId) (coh : Option τ) :
    Events τ × Scan τ :=
  let self := if (self.body e).isQuorum then self.cullMembers e else self
  let scan := scanListeners drv (self.body e).listeners coh
  (self.modify e fun body => { body with listeners := scan.kept, triggered := true }, scan)

/-- `trigger_member` as far as the members and their count. -/
def noteMember (self : Events τ) (q e : EventId) : Events τ :=
  if e ∈ (self.body q).members then
    self.modify q fun body =>
      { body with count := body.count + 1, members := swapRemove e body.members }
  else self

/-- `trigger_member` of quorum `q`, called for `e`; `unlock` is `trigger_unlock`. -/
def triggerMember (unlock : Events τ → EventId → Option τ → Events τ × Option τ)
    (self : Events τ) (q e : EventId) (coh : Option τ) : Events τ × Option τ :=
  let self := self.noteMember q e
  if (self.body q).triggered = false ∧ (self.body q).quorum ≤ (self.body q).count then
    unlock self q coh
  else (self, coh)

/-- `trigger_unlock`, with a bound on the depth of its recursion through quorums. -/
def triggerUnlock (drv : Bool) : Nat → Events τ → EventId → Option τ → Events τ × Option τ
  | 0, self, _, coh => (self, coh)
  | n + 1, self, e, coh =>
      let (self, scan) := self.markTriggered drv e coh
      let (self, coh) := scan.quorums.foldl
        (fun before q => triggerMember (triggerUnlock drv n) before.1 q e before.2)
        (self, scan.coh)
      (if scan.posts then { self with asap := self.asap ++ [e] } else self, coh)

/-- `trigger_unlock` as a call from outside; no chain of quorums is longer than the list
of bodies. -/
def triggerEvent (self : Events τ) (drv : Bool) (e : EventId) : Events τ × Option τ :=
  triggerUnlock drv self.next self e none

/-- `event_body::trigger`. -/
def trigger (self : Events τ) (e : EventId) : Events τ :=
  if (self.body e).triggered then self else (self.triggerEvent false e).1

/-- The first coroutine among the listeners. -/
def firstCoroutine : List (Listener τ) → Option τ
  | [] => none
  | .quorum _ :: rest => firstCoroutine rest
  | .coroutine t :: _ => some t

/-- `driver_trigger`. -/
def driverTrigger (self : Events τ) (e : EventId) : Events τ × Option τ :=
  if (self.body e).triggered then
    match firstCoroutine (self.body e).listeners with
    | none => (self, none)
    | some t => (self.removeListener e (.coroutine t), some t)
  else self.triggerEvent true e

/-- `quorum_event_body::add_member` of an event. -/
def addMember (self : Events τ) (q : EventId) (handle : EventHandle) : Events τ :=
  let self := self.modify q fun body => { body with given := body.given ++ [handle] }
  match handle with
  | none => self.modify q fun body => { body with count := body.count + 1 }
  | some e =>
      if (self.body e).triggered then
        self.modify q fun body => { body with count := body.count + 1 }
      else
        (self.addListener e (.quorum q)).modify q fun body =>
          { body with
            wantInterest := body.wantInterest || (self.body e).wantInterest
            members := body.members ++ [e] }

/-- `quorum_event_body::add_member` of `interest{}`. -/
def addInterest (self : Events τ) (q : EventId) : Events τ :=
  self.modify q fun body => { body with wantInterest := true, interest := body.interest + 1 }

/-- `seal`. -/
def sealQuorum (self : Events τ) (q : EventId) : Events τ :=
  if (self.body q).quorum ≤ (self.body q).count then (self.triggerEvent false q).1 else self

/-- `quorum_event_body::make`, where `none` is `interest{}`. -/
def make (self : Events τ) (quorum : Nat) (args : List (Option EventHandle)) : Events τ :=
  let q := self.next
  let self := self.alloc { isQuorum := true, quorum := quorum }
  let self := args.foldl (fun self arg => match arg with
    | none => self.addInterest q
    | some handle => self.addMember q handle) self
  self.sealQuorum q

/-- The loop of `fix_want_interest` that adds the interest event for each `interest{}`. -/
def applyInterest (q : EventId) (ievent : EventHandle) : Nat → Events τ → Events τ
  | 0, self => self
  | n + 1, self =>
      let self := self.modify q fun body => { body with interest := n }
      applyInterest q ievent n (self.addMember q ievent)

/-- `fix_want_interest`, with a bound on the depth of its recursion through members. -/
def fixWantInterest (ievent : EventHandle) : Nat → Events τ → EventId → Events τ
  | 0, self, _ => self
  | n + 1, self, q =>
      let self := self.modify q fun body => { body with wantInterest := false }
      if (self.body q).triggered then self
      else
        let self := applyInterest q ievent (self.body q).interest self
        if (self.body q).quorum ≤ (self.body q).count then (self.triggerEvent false q).1
        else
          let wiMembers := (self.body q).members.filter fun m => (self.body m).wantInterest
          wiMembers.foldl (fixWantInterest ievent n) self

/-- `task_event_awaiter` for a task whose interest event is `ievent`: the task is
suspended unless the event has triggered. -/
def await (self : Events τ) (t : τ) (ievent : EventHandle) (e : EventId) : Events τ :=
  if (self.body e).triggered then self
  else
    let self :=
      if (self.body e).wantInterest then fixWantInterest ievent self.next self e else self
    if (self.body e).triggered then self else self.addListener e (.coroutine t)

end Listeners

end Events

/-- A program, its events and its driver. -/
structure EventLoop (τ : Type u) where
  events : Events τ
  /-- Events that the driver will trigger: timers and file events. -/
  watched : List EventId
  /-- The event whose coroutines the driver is resuming. -/
  draining : Option EventId
  /-- `interest_` of each task; the outer `none` is a clear `has_interest_`. -/
  interest : τ → Option EventHandle
  /-- Events that have been triggered by the program or by the driver. -/
  fired : List EventId

/-- What a program or its driver does next. -/
inductive EventAction (τ : Type u) where
  | newEvent
  | make (quorum : Nat) (args : List (Option EventHandle))
  | trigger (e : EventId)
  | asap (e : EventId)
  | watch (e : EventId)
  | makeInterest (t : τ)
  | start (t : τ)
  | await (t : τ) (e : EventId)
  | cancel (t : τ) (e : EventId)
  | cull (e : EventId)
  | takeAsap
  | takeWatched (e : EventId)
  | drain
  deriving DecidableEq

namespace EventLoop

variable {τ : Type u}

/-- A program that has not done anything. -/
def start : EventLoop τ where
  events := { body := fun _ => {}, next := 0, asap := [] }
  watched := []
  draining := none
  interest := fun _ => none
  fired := []

/-- The bodies that a handle refers to exist. -/
def Known (self : EventLoop τ) (handle : EventHandle) : Prop :=
  ∀ e ∈ handle, e < self.events.next

instance decidableKnown (self : EventLoop τ) (handle : EventHandle) :
    Decidable (self.Known handle) :=
  inferInstanceAs (Decidable (∀ e ∈ handle, e < self.events.next))

section Steps

variable [DecidableEq τ]

/-- `make_interest`. -/
def makeInterest (self : EventLoop τ) (t : τ) : EventLoop τ :=
  match self.interest t with
  | some _ => self
  | none =>
      { self with
        events := self.events.alloc {}
        interest := Function.update self.interest t (some (some self.events.next)) }

/-- One action; an action on a body that does not exist is impossible. -/
def step (self : EventLoop τ) : EventAction τ → Option (EventLoop τ)
  | .newEvent => some { self with events := self.events.alloc {} }
  | .make quorum args =>
      if ∀ arg ∈ args, ∀ handle ∈ arg, self.Known handle then
        some { self with events := self.events.make quorum args }
      else none
  | .trigger e =>
      if e < self.events.next then
        some { self with events := self.events.trigger e, fired := e :: self.fired }
      else none
  | .asap e =>
      if e < self.events.next then
        some { self with events.asap := self.events.asap ++ [e] }
      else none
  | .watch e =>
      if e < self.events.next then some { self with watched := e :: self.watched } else none
  | .makeInterest t => some (self.makeInterest t)
  | .start t =>
      match self.interest t with
      | some (some e) =>
          some { self with events := self.events.trigger e, fired := e :: self.fired }
      | _ => some { self with interest := Function.update self.interest t (some none) }
  | .await t e =>
      if e < self.events.next then
        -- the interest event is only made for an event that wants it
        let self :=
          if (self.events.body e).triggered = false ∧ (self.events.body e).wantInterest then
            self.makeInterest t
          else self
        let ievent := (self.interest t).getD none
        some { self with events := self.events.await t ievent e }
      else none
  | .cancel t e => some { self with events := self.events.removeListener e (.coroutine t) }
  | .cull e =>
      if (self.events.body e).triggered ∨ (self.events.body e).listeners = [] then
        some { self with watched := self.watched.erase e }
      else none
  | .takeAsap =>
      match self.draining, self.events.asap with
      | none, e :: rest => some { self with events.asap := rest, draining := some e }
      | _, _ => none
  | .takeWatched e =>
      if self.draining = none ∧ e ∈ self.watched then
        some { self with watched := self.watched.erase e, draining := some e }
      else none
  | .drain =>
      match self.draining with
      | none => none
      | some e =>
          match self.events.driverTrigger e with
          | (events, none) =>
              some { self with events := events, draining := none, fired := e :: self.fired }
          | (events, some _) => some { self with events := events, fired := e :: self.fired }

end Steps

end EventLoop

end DoomDraft.Cotamer
