import DoomDraft.Cotamer.FdEventSet

/-!
# Watches as queues

What the event set is for: each descriptor has a body, an epoch and a queue of watches,
and the descriptors to reconcile with the kernel are a stack.  A notification takes the
watches that it concerns out of the queue, in their order; closing empties the queue.
-/

namespace DoomDraft.Cotamer

universe u v

/-- An event that waits for some of the events of a descriptor. -/
structure Watch (ε : Type v) where
  event : ε
  mask : FdEvent

/-- What is known of one descriptor. -/
structure Interest (β : Type u) (ε : Type v) where
  body : Option β := none
  epoch : BitVec 32 := FdEventSet.emptyEpoch
  watches : List (Watch ε) := []

/-- The events of which some live watch wants to know. -/
def wanted {ε : Type v} (isEmpty : ε → Bool) (watches : List (Watch ε)) : FdEvent :=
  watches.foldl (fun mask watch => if isEmpty watch.event then mask else mask ||| watch.mask) 0

/-- A watch that a notification takes: it waits for one of its events, or nobody waits for
its own event any more. -/
def Watch.concerned {ε : Type v} (isEmpty : ε → Bool) (imask : FdEvent) (watch : Watch ε) : Bool :=
  imask &&& watch.mask ≠ 0 ∨ isEmpty watch.event

/-- The queues of all descriptors, the descriptors to reconcile, and the watches that have
been taken and not yet been handed out. -/
structure Registry (β : Type u) (ε : Type v) where
  interest : Nat → Interest β ε
  pending : List Nat
  taken : List (Watch ε)

namespace Registry

variable {β : Type u} {ε : Type v}

/-- Nothing is watched. -/
def empty : Registry β ε where
  interest _ := {}
  pending := []
  taken := []

/-- The interest in a descriptor is replaced. -/
def set (self : Registry β ε) (fd : Nat) (interest : Interest β ε) : Registry β ε :=
  { self with interest := Function.update self.interest fd interest }

/-- A descriptor is to be reconciled. -/
def note (self : Registry β ε) (fd : Nat) : Registry β ε :=
  { self with pending := if fd ∈ self.pending then self.pending else fd :: self.pending }

/-- The next descriptor is reconciled.  An epoch ends when nobody waits any more. -/
def update (self : Registry β ε) (isEmpty : ε → Bool) : Registry β ε × Option FdUpdate :=
  match self.pending with
  | [] => (self, none)
  | fd :: rest =>
      let now := self.interest fd
      let mask := wanted isEmpty now.watches
      let epoch :=
        if mask ≠ 0 ∧ now.epoch < FdEventSet.userEpoch then FdEventSet.userEpoch else now.epoch
      let left := if mask = 0 then now.epoch + 1 else epoch
      ({ self.set fd { now with epoch := left } with pending := rest },
        some ⟨BitVec.ofNat 32 fd, mask, epoch⟩)

/-- A notification of an epoch, where 0 is any epoch. -/
def take (self : Registry β ε) (isEmpty : ε → Bool) (fd : Nat) (imask : FdEvent)
    (epoch : BitVec 32) : Registry β ε :=
  let now := self.interest fd
  let taken := now.watches.filter (Watch.concerned isEmpty imask)
  if (epoch ≠ 0 ∧ epoch ≠ now.epoch) ∨ taken = [] then self
  else
    let kept := now.watches.filter fun watch => !watch.concerned isEmpty imask
    { (self.set fd { now with watches := kept }).note fd with taken := taken }

/-- A descriptor whose body has been closed is given up. -/
def close (self : Registry β ε) (closed : β → Bool) (fd : Nat) :
    Registry β ε × FdEventSet.Closed β ε :=
  let now := self.interest fd
  match now.body with
  | none => (self, ⟨none, []⟩)
  | some body =>
      if closed body then
        ((self.set fd { epoch := now.epoch + 1 }).note fd,
          ⟨some (body, now.epoch), now.watches.map Watch.event⟩)
      else (self, ⟨none, []⟩)

/-- A watch on behalf of a body joins the queue of the descriptor. -/
def join (self : Registry β ε) (fd : Nat) (imask : FdEvent) (body : β) (ev : ε) :
    Registry β ε :=
  let now := self.interest fd
  (self.note fd).set fd { now with body := some body, watches := now.watches ++ [⟨ev, imask⟩] }

/-- A watch is installed; undefined when the descriptor belongs to another body that has
not been closed. -/
def watch [DecidableEq β] (self : Registry β ε) (closed : β → Bool) (fd : BitVec 32)
    (imask : FdEvent) (body : β) (ev : ε) : Option (Registry β ε × FdEventSet.Watched β ε) :=
  if fd.slt 0 ∨ imask = 0 then some (self, ⟨[], none, none⟩)
  else
    let join (left : Registry β ε) := left.join fd.toNat imask body ev
    match (self.interest fd.toNat).body with
    | none => some (join self, ⟨[], none, some body⟩)
    | some owner =>
        if owner = body then some (join self, ⟨[], none, none⟩)
        else if closed owner then
          let given := self.close closed fd.toNat
          some (join given.1, ⟨given.2.triggered, some owner, some body⟩)
        else none

/-- The first descriptor from some number on that is watched. -/
noncomputable def nextKnown (self : Registry β ε) (isEmpty : ε → Bool) (start : Nat) :
    Option FdUpdate :=
  open Classical in
  if known : ∃ fd, start ≤ fd ∧ (self.interest fd).watches ≠ [] then
    let fd := Nat.find known
    some ⟨BitVec.ofNat 32 fd, wanted isEmpty (self.interest fd).watches,
      (self.interest fd).epoch⟩
  else none

end Registry

/-! ## Calls and answers -/

/-- The state of bodies and events at the time of a call. -/
structure Surroundings (β : Type u) (ε : Type v) where
  closed : β → Bool
  isEmpty : ε → Bool

/-- The calls that an event set receives.  A notification arrives when the list that the
one before has taken is drained; `pop` drains that list. -/
inductive FdCall (β : Type u) (ε : Type v)
  | watch (fd : BitVec 32) (imask : FdEvent) (body : β) (ev : ε)
  | take (fd : BitVec 32) (imask : FdEvent) (epoch : BitVec 32)
  | pop (mask : FdEvent)
  | close (fd : BitVec 32)
  | update
  | nextKnown (fd : BitVec 32)
  | mask (fd : BitVec 32)
  | hasUpdate

/-- What a call answers. -/
inductive FdAnswer (β : Type u) (ε : Type v)
  | watched (result : FdEventSet.Watched β ε)
  | taken (any : Bool)
  | popped (event : Option ε) (flags : Option FdEvent)
  | closed (result : FdEventSet.Closed β ε)
  | update (result : Option FdUpdate)
  | mask (mask : FdEvent)
  | hasUpdate (any : Bool)

variable {β : Type u} {ε : Type v}

/-- A call of the event set, with the link of the list that is being drained. -/
def FdEventSet.call [DecidableEq β] (state : FdEventSet β ε × Nat) :
    Surroundings β ε × FdCall β ε → Option ((FdEventSet β ε × Nat) × FdAnswer β ε)
  | (around, .watch fd imask body ev) =>
      (state.1.watch around.closed fd imask body ev).map fun (left, result) =>
        ((left, state.2), .watched result)
  | (around, .take fd imask epoch) =>
      if state.2 ≠ linkClean then none
      else (state.1.takeWatchList around.isEmpty fd imask epoch).map fun (left, wix) =>
        ((left, wix), .taken (wix ≠ linkClean))
  | (_, .pop mask) =>
      if state.2 = linkClean then none
      else
        let (left, wix, event, flags) := state.1.popWatchListEvent state.2 mask
        some ((left, wix), .popped event flags)
  | (around, .close fd) =>
      (state.1.fdClose around.closed fd).map fun (left, result) =>
        ((left, state.2), .closed result)
  | (around, .update) =>
      (state.1.popUpdate around.isEmpty).map fun (left, result) => ((left, state.2), .update result)
  | (around, .nextKnown fd) =>
      (state.1.nextKnown around.isEmpty fd).map fun result => (state, .update result)
  | (around, .mask fd) =>
      (state.1.fdMask around.isEmpty fd).map fun mask => (state, .mask mask)
  | (_, .hasUpdate) => some (state, .hasUpdate state.1.hasUpdate)

/-- The same call of the queues. -/
noncomputable def Registry.call [DecidableEq β] (self : Registry β ε) :
    Surroundings β ε × FdCall β ε → Option (Registry β ε × FdAnswer β ε)
  | (around, .watch fd imask body ev) =>
      (self.watch around.closed fd imask body ev).map fun (left, result) => (left, .watched result)
  | (around, .take fd imask epoch) =>
      if self.taken ≠ [] then none
      else
        let left := self.take around.isEmpty fd.toNat imask epoch
        some (left, .taken (left.taken ≠ []))
  | (_, .pop mask) =>
      match self.taken with
      | [] => none
      | first :: rest =>
          some ({ self with taken := rest },
            .popped (some first.event) (if mask ≠ 0 then some mask else none))
  | (around, .close fd) =>
      let given := self.close around.closed fd.toNat
      some (given.1, .closed given.2)
  | (around, .update) =>
      let given := self.update around.isEmpty
      some (given.1, .update given.2)
  | (around, .nextKnown fd) =>
      some (self, .update (self.nextKnown around.isEmpty (fd + 1).toNat))
  | (around, .mask fd) =>
      some (self, .mask (wanted around.isEmpty (self.interest fd.toNat).watches))
  | (_, .hasUpdate) => some (self, .hasUpdate (self.pending ≠ []))

end DoomDraft.Cotamer
