import Mathlib.Data.Fintype.Basic
import Mathlib.Data.Finset.Card
import DoomDraft.Cotamer.Events
import DoomDraft.Cotamer.FdRegistry

/-!
# File descriptors, drivers and the kernel

A `cotamer::fd` is a counted reference to a body, which owns a descriptor of the operating
system.  A driver that watches a descriptor listens to its body and registers the
descriptor with its `epoll` instance; it learns that the body has been closed, at once or
by a message from another driver, and only then is the descriptor itself closed, so that
its number can be given out again.  The number of a new descriptor and the address of a new
body may be those of old ones.

Drivers run at the same time.  A step is one access to what they share: an atomic load or
`fetch_sub`, what a body does under its lock, a message, `::close`, or `delete`.  What a
driver does between two of them to its own tables and to its `epoll` instance, which no
other driver reads, belongs to one step.

An access that would throw, dereference nothing, reach a deleted body, or close a
descriptor that is not its own is a fault.
-/

namespace DoomDraft.Cotamer

universe u v w

/-- A pair of an open file and how the kernel was asked to watch it.  `epoch` is the upper
half of the user data of the registration. -/
structure Registration where
  mask : FdEvent
  epoch : BitVec 32
  file : Nat

/-- A notification of the kernel, and the open file that it is about, which the program
does not see. -/
structure Notification where
  update : FdUpdate
  file : Nat

/-- `fd_body`, with the open file behind its descriptor. -/
structure FdBody (δ : Type w) where
  fd : BitVec 32
  baseFd : BitVec 32
  ref : Nat
  drivers : List δ
  file : Nat

/-- What a `driver` and its `epoll` instance know of descriptors.  `batch` are the
notifications that have not been processed; `wix` is the list that the current one has
taken, which is about the open file `source`. -/
structure IoDriver (β : Type u) (ε : Type v) where
  fds : FdEventSet β ε
  fdctl : List (BitVec 64)
  nfdctl : Nat
  epoll : Nat → Option Registration
  batch : List Notification
  wix : Nat
  source : Nat
  migrateFdClose : List (BitVec 32)

/-- The next access to what drivers share, in a call that a driver has begun: the
`fetch_sub` of `deref`, the `close` of `deref`, the watch on the number that `fileno` has
loaded, the locked part of `remove_listener`, `::close`, or the `delete` of a body.  A body
that is `deletable` is deleted behind `::close`. -/
inductive IoAccess (β : Type u)
  | release (b : β)
  | close (b : β)
  | watch (b : β) (fd : BitVec 32) (mask : FdEvent)
  | removeListener (b : β)
  | osClose (fd : BitVec 32) (file : Nat) (deletable : Option β)
  | delete (b : β)

/-- How far a driver is in a call: the next access, the body whose listeners it is about to
join, and the drivers that are still to be notified of descriptors. -/
structure IoCall (δ : Type w) (β : Type u) where
  front : Option (IoAccess β) := none
  joins : Option β := none
  todo : List (δ × BitVec 32) := []

/-- What a driver is about to do to a body. -/
inductive Phase
  | away
  | releases
  | closes
  | watches (fd : BitVec 32)
  | joins
  | leaves
  | deletes

/-- All drivers and bodies, and the descriptor table of the process.  `isEmpty` are the
events that have been triggered or that nobody waits for, `installed` says for which open
file an event was returned, and `delivered` which notification triggered it. -/
structure Io (δ : Type w) (β : Type u) (ε : Type v) where
  driver : δ → IoDriver β ε
  call : δ → IoCall δ β
  body : β → Option (FdBody δ)
  os : Nat → Option Nat
  files : Nat
  isEmpty : ε → Bool
  installed : ε → Option Nat
  delivered : List (ε × Nat)
  fault : Bool

/-- `EPOLL_CTL_ADD`, `EPOLL_CTL_MOD`, `EPOLL_CTL_DEL`. -/
inductive EpollOp
  | add
  | mod
  | del

/-- `epoll_ctl`, which fails on a descriptor that is not open, adds a registration only
where there is none, and changes or deletes only one of the same open file. -/
def epollCtl (os : Nat → Option Nat) (epoll : Nat → Option Registration) (op : EpollOp)
    (update : FdUpdate) : Option (Nat → Option Registration) :=
  let fd := update.fd.toNat
  (os fd).bind fun file =>
    let entry : Registration := ⟨update.mask, update.epoch, file⟩
    match op, epoll fd with
    | .add, none => some (Function.update epoll fd (some entry))
    | .mod, some old =>
        if old.file = file then some (Function.update epoll fd (some entry)) else none
    | .del, some old => if old.file = file then some (Function.update epoll fd none) else none
    | _, _ => none

/-! ## The table of registrations -/

/-- The shift of a descriptor within its word of `fdctl_`. -/
def fdcs (fd : Nat) : Nat := fd % 16 * 4

/-- The mask of a descriptor in its word of `fdctl_`. -/
def unpackMask (word : BitVec 64) (fd : Nat) : FdEvent :=
  ((word >>> fdcs fd) &&& 15).setWidth 3

/-- The word after a change of mask. -/
def packMask (word : BitVec 64) (fd : Nat) (oldMask mask : FdEvent) : BitVec 64 :=
  word ^^^ ((oldMask ^^^ mask).setWidth 64 <<< fdcs fd)

/-- The mask that `fdctl_` holds for a descriptor. -/
def heldMask (fdctl : List (BitVec 64)) (fd : Nat) : FdEvent :=
  unpackMask (fdctl.getD (fd / 16) 0) fd

namespace IoDriver

variable {β : Type u} {ε : Type v}

/-- `apply_fd_update` with the `epoll` variant of `fd_batch::add`; undefined when
`epoll_ctl` fails. -/
def applyFdUpdate (self : IoDriver β ε) (os : Nat → Option Nat) (fdu : FdUpdate) :
    Option (IoDriver β ε) :=
  let fd := fdu.fd.toNat
  let fdci := fd / 16
  let fdctl := if self.fdctl.length ≤ fdci then
      self.fdctl ++ List.replicate (fdci + 1 - self.fdctl.length) 0
    else self.fdctl
  let oldMask := heldMask fdctl fd
  if oldMask = fdu.mask then some { self with fdctl := fdctl }
  else
    let op := if fdu.mask ≠ 0 then (if oldMask ≠ 0 then EpollOp.mod else .add) else .del
    (epollCtl os self.epoll op fdu).map fun epoll =>
      { self with
        epoll := epoll
        fdctl := fdctl.set fdci (packMask (fdctl.getD fdci 0) fd oldMask fdu.mask)
        nfdctl := if oldMask = 0 then self.nfdctl + 1
          else if fdu.mask = 0 then self.nfdctl - 1
          else self.nfdctl }

end IoDriver

/-! ## Calls in progress -/

/-- A reference is on its way to be dropped. -/
def Phase.drops : Phase → Bool
  | .releases | .closes => true
  | _ => false

/-- `file_event` is in progress. -/
def Phase.borrows : Phase → Bool
  | .watches _ | .joins => true
  | _ => false

/-- What an access does to a body. -/
def IoAccess.phase {β : Type u} [DecidableEq β] (b : β) : IoAccess β → Phase
  | .release b' => if b' = b then .releases else .away
  | .close b' => if b' = b then .closes else .away
  | .watch b' fd _ => if b' = b then .watches fd else .away
  | .removeListener b' => if b' = b then .leaves else .away
  | .osClose _ _ deletable => if deletable = some b then .deletes else .away
  | .delete b' => if b' = b then .deletes else .away

/-- What a driver is about to do to a body. -/
def IoCall.phase {δ : Type w} {β : Type u} [DecidableEq β] (self : IoCall δ β) (b : β) : Phase :=
  match self.front with
  | some front => front.phase b
  | none => if self.joins = some b then .joins else .away

/-- No call is in progress. -/
def IoCall.idle {δ : Type w} {β : Type u} (self : IoCall δ β) : Bool :=
  self.front.isNone && self.joins.isNone && self.todo.isEmpty

/-- The drivers that are dropping a reference. -/
def droppers {δ : Type w} [Fintype δ] (phase : δ → Phase) : Finset δ :=
  Finset.univ.filter fun d => (phase d).drops

/-- The drivers in the middle of `file_event`. -/
def borrowers {δ : Type w} [Fintype δ] (phase : δ → Phase) : Finset δ :=
  Finset.univ.filter fun d => (phase d).borrows

/-- The references that are being dropped, and one on behalf of which `file_event` is
called as long as it is. -/
def engaged {δ : Type w} [Fintype δ] (phase : δ → Phase) : Nat :=
  (droppers phase).card + min 1 (borrowers phase).card

namespace Io

variable {δ : Type w} {β : Type u} {ε : Type v} [DecidableEq δ] [DecidableEq β] [DecidableEq ε]

/-- A driver is replaced. -/
def setDriver (self : Io δ β ε) (d : δ) (driver : IoDriver β ε) : Io δ β ε :=
  { self with driver := Function.update self.driver d driver }

/-- A driver goes on to another place of its call. -/
def setCall (self : Io δ β ε) (d : δ) (call : IoCall δ β) : Io δ β ε :=
  { self with call := Function.update self.call d call }

/-- The next access of a driver is replaced. -/
def setFront (self : Io δ β ε) (d : δ) (front : Option (IoAccess β)) : Io δ β ε :=
  self.setCall d { self.call d with front := front }

/-- What is at the address of a body is replaced. -/
def setBody (self : Io δ β ε) (b : β) (body : Option (FdBody δ)) : Io δ β ε :=
  { self with body := Function.update self.body b body }

/-- Events that trigger. -/
def trigger (self : Io δ β ε) (events : List ε) : Io δ β ε :=
  { self with isEmpty := fun ev => self.isEmpty ev || decide (ev ∈ events) }

/-- `body->fileno() < 0`. -/
def closed (self : Io δ β ε) (b : β) : Bool := (self.body b).all fun body => body.fd.slt 0

/-- What each driver is about to do to a body. -/
def phase (self : Io δ β ε) (b : β) (d : δ) : Phase := (self.call d).phase b

/-! ### Accesses -/

/-- The load of `fd_body::deref`, which decides what follows. -/
def deref (self : Io δ β ε) (d : δ) (b : β) : Option (Io δ β ε) :=
  (self.body b).map fun body =>
    self.setFront d (some (if body.ref = 1 then .close b else .release b))

/-- The `fetch_sub` of `fd_body::deref`. -/
def release (self : Io δ β ε) (d : δ) (b : β) : Option (Io δ β ε) :=
  (self.body b).map fun body =>
    (self.setBody b (some { body with ref := body.ref - 1 })).setFront d none

/-- `fd_body::close` up to `unlock`; `::close`, the loop over the drivers that listen and
`delete` are still to come. -/
def close (self : Io δ β ε) (d : δ) (b : β) (becauseDeref : Bool) : Option (Io δ β ε) :=
  (self.body b).map fun body =>
    let first := !body.fd.slt 0
    let baseFd : BitVec 32 := if first then body.baseFd else -1
    let drivers := if first then body.drivers else []
    let closeNow := !baseFd.slt 0 && drivers.isEmpty
    let deletable := if becauseDeref && body.drivers.isEmpty then some b else none
    let left := self.setBody b (some { body with
      fd := if first then -1 else body.fd
      baseFd := if closeNow then -1 else body.baseFd
      ref := if becauseDeref then body.ref - 1 else body.ref })
    left.setCall d { left.call d with
      front := if closeNow then some (.osClose baseFd body.file deletable)
        else deletable.map .delete
      todo := (if baseFd.slt 0 then [] else drivers.map fun dx => (dx, baseFd)) ++
        (left.call d).todo }

/-- `fd_body::add_listener`. -/
def addListener (self : Io δ β ε) (d : δ) (b : β) : Option (Io δ β ε) :=
  (self.body b).map fun body =>
    let left := self.setBody b (some { body with drivers := body.drivers ++ [d] })
    left.setCall d { left.call d with joins := none }

/-- `fd_body::remove_listener` up to `unlock`. -/
def removeListener (self : Io δ β ε) (d : δ) (b : β) : Option (Io δ β ε) :=
  (self.body b).map fun body =>
    let drivers := swapRemove d body.drivers
    if drivers ≠ [] then
      (self.setBody b (some { body with drivers := drivers })).setFront d none
    else
      let deletable := if body.ref = 0 then some b else none
      let closable : BitVec 32 := if body.fd.slt 0 then body.baseFd else -1
      let baseFd : BitVec 32 := if closable.slt 0 then body.baseFd else -1
      (self.setBody b (some { body with drivers := drivers, baseFd := baseFd })).setFront d
        (if closable.slt 0 then deletable.map .delete
          else some (.osClose closable body.file deletable))

/-- `::close` of the descriptor of an open file.  The kernel drops what is registered of
the file. -/
def osClose (self : Io δ β ε) (d : δ) (fd : BitVec 32) (file : Nat) (deletable : Option β) :
    Option (Io δ β ε) :=
  if self.os fd.toNat = some file then
    some { self.setFront d (deletable.map .delete) with
      os := Function.update self.os fd.toNat none
      driver := fun d => { self.driver d with
        epoll := fun n => (self.driver d).epoll n |>.filter fun entry => entry.file ≠ file } }
  else none

/-- `delete` of a body, which closes its descriptor where it still has one. -/
def deleteBody (self : Io δ β ε) (d : δ) (b : β) : Option (Io δ β ε) :=
  (self.body b).map fun body =>
    (self.setBody b none).setFront d
      (if body.baseFd.slt 0 then none else some (.osClose body.baseFd body.file none))

/-- `driver::notify_close` up to `remove_listener`. -/
def notifyClose (self : Io δ β ε) (d : δ) (baseFd : BitVec 32) : Option (Io δ β ε) :=
  let driver := self.driver d
  (driver.fds.fdClose self.closed baseFd).bind fun (fds, done) =>
    match done.result with
    | none => some (self.setDriver d { driver with fds := fds })
    | some (b, epoch) =>
        let closed : IoDriver β ε := { driver with fds := fds }
        (closed.applyFdUpdate self.os ⟨baseFd, 0, epoch⟩).map fun driver =>
          ((self.setDriver d driver).trigger done.triggered).setFront d (some (.removeListener b))

/-- `driver::migrate_fd_close`. -/
def migrateFdClose (self : Io δ β ε) (d : δ) (baseFd : BitVec 32) : Io δ β ε :=
  let driver := self.driver d
  self.setDriver d { driver with migrateFdClose := driver.migrateFdClose ++ [baseFd] }

/-- One turn of the loops of `fd_body::close` and `driver::finish_migrate`, on driver `d`. -/
def notify (self : Io δ β ε) (d dx : δ) (baseFd : BitVec 32) (rest : List (δ × BitVec 32)) :
    Option (Io δ β ε) :=
  let left := self.setCall d { self.call d with todo := rest }
  if dx = d then left.notifyClose d baseFd else some (left.migrateFdClose dx baseFd)

/-- The messages are taken by `driver::finish_migrate`, which notifies the driver of each. -/
def finishMigrate (self : Io δ β ε) (d : δ) : Io δ β ε :=
  let driver := self.driver d
  (self.setDriver d { driver with migrateFdClose := [] }).setCall d
    { self.call d with todo := driver.migrateFdClose.map fun baseFd => (d, baseFd) }

/-- The load of `driver::file_event`. -/
def fileEvent (self : Io δ β ε) (d : δ) (b : β) (mask : FdEvent) : Option (Io δ β ε) :=
  (self.body b).map fun body => self.setFront d (some (.watch b body.fd mask))

/-- The watch of `driver::file_event`, which returns `ev`. -/
def watch (self : Io δ β ε) (d : δ) (b : β) (fd : BitVec 32) (mask : FdEvent) (ev : ε) :
    Option (Io δ β ε) :=
  (self.body b).bind fun body =>
    let driver := self.driver d
    (driver.fds.watch self.closed fd mask b ev).map fun (fds, watched) =>
      let left := (self.setDriver d { driver with fds := fds }).trigger watched.triggered
      { left.setCall d { left.call d with
          front := watched.removed.map .removeListener
          joins := watched.added } with
        installed := Function.update left.installed ev (some body.file) }

/-- One turn of the loop of `driver::loop` that registers changes. -/
def reconcile (self : Io δ β ε) (d : δ) : Option (Io δ β ε) :=
  let driver := self.driver d
  (driver.fds.popUpdate self.isEmpty).bind fun (fds, fdu) =>
    match fdu with
    | none => some self
    | some fdu =>
        let popped : IoDriver β ε := { driver with fds := fds }
        (popped.applyFdUpdate self.os fdu).map (self.setDriver d)

/-- The next notification of `driver::watch_fds` is looked up. -/
def dispatch (self : Io δ β ε) (d : δ) (notification : Notification) (rest : List Notification) :
    Option (Io δ β ε) :=
  let driver := self.driver d
  let fdu := notification.update
  (driver.fds.takeWatchList self.isEmpty fdu.fd fdu.mask fdu.epoch).map fun (fds, wix) =>
    self.setDriver d
      { driver with fds := fds, batch := rest, wix := wix, source := notification.file }

/-- The next event of the list that has been taken is triggered. -/
def drain (self : Io δ β ε) (d : δ) (mask : FdEvent) : Io δ β ε :=
  let driver := self.driver d
  let (fds, wix, event, _) := driver.fds.popWatchListEvent driver.wix mask
  let left := (self.setDriver d { driver with fds := fds, wix := wix }).trigger event.toList
  { left with delivered := left.delivered ++ event.toList.map fun ev => (ev, driver.source) }

end Io

/-! ## Steps -/

/-- What the program, the drivers and the kernel do.  `wrap` makes a `cotamer::fd` of a
descriptor that the operating system has just opened; `copy`, `deref`, `close` and
`fileEvent` are calls of the program, of which `watch`, that returns `ev`, and `work` are
the later accesses; `retire` is an event that triggers by itself or that is forgotten by
those who waited for it. -/
inductive IoAction (δ : Type w) (β : Type u) (ε : Type v)
  | wrap (b : β) (fd : BitVec 32)
  | copy (b : β)
  | deref (d : δ) (b : β)
  | close (d : δ) (b : β)
  | fileEvent (d : δ) (b : β) (mask : FdEvent)
  | watch (d : δ) (ev : ε)
  | work (d : δ)
  | retire (ev : ε)
  | reconcile (d : δ)
  | ready (d : δ) (fd : BitVec 32) (mask : FdEvent)
  | dispatch (d : δ)
  | drain (d : δ) (mask : FdEvent)
  | finishMigrate (d : δ)

namespace Io

variable {δ : Type w} {β : Type u} {ε : Type v} [Fintype δ] [DecidableEq δ] [DecidableEq β]
  [DecidableEq ε]

/-- A program uses a body only while it holds a reference to it that it is not dropping. -/
def held (self : Io δ β ε) (b : β) : Bool :=
  (self.body b).any fun body => (droppers (self.phase b)).card < body.ref

/-- A program keeps the reference on behalf of which it calls `file_event`. -/
def droppable (self : Io δ β ε) (b : β) : Bool :=
  (self.body b).any fun body => engaged (self.phase b) < body.ref

/-- An access that is undefined faults. -/
def orFault (self : Io δ β ε) (result : Option (Io δ β ε)) : Io δ β ε :=
  result.getD { self with fault := true }

/-- The next access of a call in progress; `watch` has an action of its own. -/
def work (self : Io δ β ε) (d : δ) : Option (Io δ β ε) :=
  match (self.call d).front, (self.call d).joins, (self.call d).todo with
  | some (.release b), _, _ => some (self.orFault (self.release d b))
  | some (.close b), _, _ => some (self.orFault (self.close d b true))
  | some (.watch _ _ _), _, _ => none
  | some (.removeListener b), _, _ => some (self.orFault (self.removeListener d b))
  | some (.osClose fd file deletable), _, _ =>
      some (self.orFault (self.osClose d fd file deletable))
  | some (.delete b), _, _ => some (self.orFault (self.deleteBody d b))
  | none, some b, _ => some (self.orFault (self.addListener d b))
  | none, none, (dx, baseFd) :: rest => some (self.orFault (self.notify d dx baseFd rest))
  | none, none, [] => none

/-- One step; undefined when the action is not enabled.  Nothing happens after a fault, and
a driver begins nothing in the middle of a call. -/
def step (self : Io δ β ε) (action : IoAction δ β ε) : Option (Io δ β ε) :=
  if self.fault then none
  else match action with
    | .wrap b fd =>
        if self.body b = none ∧ self.os fd.toNat = none ∧ fd.slt 0 = false then
          some { self.setBody b (some ⟨fd, fd, 1, [], self.files⟩) with
            os := Function.update self.os fd.toNat (some self.files)
            files := self.files + 1 }
        else none
    | .copy b =>
        if self.held b then
          some (self.setBody b ((self.body b).map fun body => { body with ref := body.ref + 1 }))
        else none
    | .deref d b =>
        if (self.call d).idle ∧ self.droppable b then some (self.orFault (self.deref d b))
        else none
    | .close d b =>
        if (self.call d).idle ∧ self.held b then some (self.orFault (self.close d b false))
        else none
    | .fileEvent d b mask =>
        if (self.call d).idle ∧ self.held b then some (self.orFault (self.fileEvent d b mask))
        else none
    | .watch d ev =>
        match (self.call d).front with
        | some (.watch b fd mask) =>
            if self.installed ev = none ∧ self.isEmpty ev = false then
              some (self.orFault (self.watch d b fd mask ev))
            else none
        | _ => none
    | .work d => self.work d
    | .retire ev => some (self.trigger [ev])
    | .reconcile d =>
        if (self.call d).idle then some (self.orFault (self.reconcile d)) else none
    | .ready d fd mask =>
        if mask = 0 then none
        else ((self.driver d).epoll fd.toNat).map fun entry =>
          let driver := self.driver d
          self.setDriver d { driver with
            batch := driver.batch ++ [⟨⟨fd, mask, entry.epoch⟩, entry.file⟩] }
    | .dispatch d =>
        if ¬(self.call d).idle ∨ (self.driver d).wix ≠ FdEventSet.linkClean then none
        else match (self.driver d).batch with
          | [] => none
          | notification :: rest => some (self.orFault (self.dispatch d notification rest))
    | .drain d mask =>
        if ¬(self.call d).idle ∨ (self.driver d).wix = FdEventSet.linkClean then none
        else some (self.drain d mask)
    | .finishMigrate d => if (self.call d).idle then some (self.finishMigrate d) else none

/-- Nothing is open, over arbitrary memory. -/
def initial (fdrs : δ → Nat → FdRec β) (ws : δ → Nat → WatchRec ε) : Io δ β ε where
  driver d := {
    fds := FdEventSet.construct (fdrs d) (ws d)
    fdctl := []
    nfdctl := 0
    epoll := fun _ => none
    batch := []
    wix := FdEventSet.linkClean
    source := 0
    migrateFdClose := [] }
  call _ := {}
  body _ := none
  os _ := none
  files := 0
  isEmpty _ := false
  installed _ := none
  delivered := []
  fault := false

/-- An access that overtakes another driver.  A body is closed while a driver that does not
listen to it yet is in the middle of `file_event`, or the count of references, which was
not 1 when `deref` loaded it, has become 1. -/
def overtakes (self : Io δ β ε) : IoAction δ β ε → Bool
  | .close _ b => (self.body b).any fun body =>
      !body.fd.slt 0 && decide (¬borrowers (self.phase b) ⊆ body.drivers.toFinset)
  | .work d =>
      match (self.call d).front with
      | some (.release b) => (self.body b).any fun body => body.ref = 1
      | _ => false
  | _ => false

end Io

end DoomDraft.Cotamer
