import Mathlib.Data.BitVec
import DoomDraft.Foundation.Links

/-!
# The event set of file descriptors

`fd_event_set` holds the watches that a driver has on file descriptors.  The watches of
one descriptor are a linked list through one vector of records; the records without a
watch are on a free list, and a list that has been taken off a descriptor is drained by
its taker.  The descriptors whose interest may differ from what the kernel knows are
linked too, through the records of the descriptors.  A link is an index plus one.
-/

namespace DoomDraft.Cotamer

universe u v

/-- `fdevent`, a set of the bits read, write and close. -/
abbrev FdEvent := BitVec 3

namespace FdEventSet

/-- `link_clean`, the end of a list of watches, or a descriptor that is not to be updated. -/
def linkClean : Nat := 0

/-- `link_sentinel`, the end of the list of updates. -/
def linkSentinel : Nat := 2 ^ 32 - 1

/-- `empty_epoch`, which matches every epoch. -/
def emptyEpoch : BitVec 32 := 0

/-- `user_epoch`, the first epoch of a descriptor that is registered. -/
def userEpoch : BitVec 32 := 2

/-- `first_capacity`. -/
def firstCapacity : Nat := 128

/-- `block_capacity`. -/
def blockCapacity : Nat := 1024

end FdEventSet

open FdEventSet

/-- `fd_event_set::fdrec`. -/
structure FdRec (β : Type u) where
  body : Option β := none
  epoch : BitVec 32 := emptyEpoch
  whead : Nat := linkClean
  wtail : Nat := linkClean
  updateLink : Nat := linkClean

/-- `fd_event_set::watchrec`. -/
structure WatchRec (ε : Type v) where
  ev : Option ε
  mask : FdEvent
  wlink : Nat

/-- `fd_update`. -/
structure FdUpdate where
  fd : BitVec 32
  mask : FdEvent
  epoch : BitVec 32
deriving DecidableEq

/-- `fd_event_set`.  `ws wix` is the record of the link `wix`, which is `ws_[wix - 1]`. -/
structure FdEventSet (β : Type u) (ε : Type v) where
  fdrs : Nat → FdRec β
  fdrCapacity : Nat
  updateLink : Nat
  ws : Nat → WatchRec ε
  wsSize : Nat
  freeWlink : Nat

namespace FdEventSet

variable {β : Type u} {ε : Type v}

/-- A set as it is constructed, over arbitrary memory. -/
def construct (fdrs : Nat → FdRec β) (ws : Nat → WatchRec ε) : FdEventSet β ε where
  fdrs := fdrs
  fdrCapacity := 0
  updateLink := linkSentinel
  ws := ws
  wsSize := 0
  freeWlink := linkClean

/-- A record whose `wlink` is written. -/
def writeLink (ws : Nat → WatchRec ε) (wix link : Nat) : Nat → WatchRec ε :=
  Function.update ws wix { ws wix with wlink := link }

/-! ## Growing -/

/-- The loop of `hard_ensure`. -/
def doubleCapacity (ufd : Nat) : Nat → Nat → Nat
  | 0, ncapacity => ncapacity
  | fuel + 1, ncapacity =>
      if ncapacity ≤ ufd then doubleCapacity ufd fuel (ncapacity * 2) else ncapacity

/-- The capacity that `hard_ensure` chooses. -/
def newCapacity (fdrCapacity ufd : Nat) : Nat :=
  if blockCapacity ≤ ufd then (ufd / blockCapacity + 1) * blockCapacity
  else doubleCapacity ufd ufd (max firstCapacity (fdrCapacity * 2))

/-- `hard_ensure`. -/
def hardEnsure (self : FdEventSet β ε) (ufd : Nat) : FdEventSet β ε :=
  let ncapacity := newCapacity self.fdrCapacity ufd
  { self with
    fdrs := fun i => if self.fdrCapacity ≤ i ∧ i < ncapacity then {} else self.fdrs i
    fdrCapacity := ncapacity }

/-! ## Updates for the kernel -/

/-- A descriptor is put on the list of updates unless it is on it. -/
def queueUpdate (self : FdEventSet β ε) (ufd : Nat) : FdEventSet β ε :=
  let fdi := self.fdrs ufd
  if fdi.updateLink = linkClean then
    { self with
      fdrs := Function.update self.fdrs ufd { fdi with updateLink := self.updateLink }
      updateLink := ufd + 1 }
  else self

/-- `has_update`. -/
def hasUpdate (self : FdEventSet β ε) : Bool := self.updateLink ≠ linkSentinel

/-- The loop of `watch_list_mask`. -/
def maskLoop (isEmpty : ε → Bool) (ws : Nat → WatchRec ε) :
    Nat → Nat → FdEvent → Option FdEvent
  | fuel, wix, mask =>
      if wix = linkClean then some mask
      else match fuel with
        | 0 => none
        | fuel + 1 =>
            let wr := ws wix
            maskLoop isEmpty ws fuel wr.wlink
              (if wr.ev.all isEmpty then mask else mask ||| wr.mask)

/-- `watch_list_mask`; undefined when the list does not end. -/
def watchListMask (self : FdEventSet β ε) (isEmpty : ε → Bool) (wix : Nat) : Option FdEvent :=
  maskLoop isEmpty self.ws self.wsSize wix 0

/-- `pop_update`. -/
def popUpdate (self : FdEventSet β ε) (isEmpty : ε → Bool) :
    Option (FdEventSet β ε × Option FdUpdate) :=
  if self.updateLink = linkSentinel then some (self, none)
  else
    let ufd := self.updateLink - 1
    let fdi := self.fdrs ufd
    (self.watchListMask isEmpty fdi.whead).map fun mask =>
      let epoch := if mask ≠ 0 ∧ fdi.epoch < userEpoch then userEpoch else fdi.epoch
      let left := if mask = 0 then fdi.epoch + 1 else epoch
      ({ self with
          updateLink := fdi.updateLink
          fdrs := Function.update self.fdrs ufd
            { fdi with updateLink := linkClean, epoch := left } },
        some ⟨BitVec.ofNat 32 ufd, mask, epoch⟩)

/-! ## Lists that are taken -/

/-- Where a pointer of `take_watch_list` points: to the local `whead`, to the `whead` of
the descriptor, or to the link of a record. -/
inductive Place
  | taken
  | kept
  | wlink (wix : Nat)

/-- The variables of the loop of `take_watch_list`. -/
structure Taking (ε : Type v) where
  whead : Nat
  fdWhead : Nat
  wtail : Nat
  ws : Nat → WatchRec ε
  wpprev : Place
  fdpprev : Place

/-- A write through a pointer. -/
def Taking.store (self : Taking ε) (place : Place) (link : Nat) : Taking ε :=
  match place with
  | .taken => { self with whead := link }
  | .kept => { self with fdWhead := link }
  | .wlink wix => { self with ws := writeLink self.ws wix link }

/-- The loop of `take_watch_list`. -/
def takeLoop (isEmpty : ε → Bool) (imask : FdEvent) :
    Nat → Nat → Taking ε → Option (Taking ε)
  | fuel, wix, self =>
      if wix = linkClean then some self
      else match fuel with
        | 0 => none
        | fuel + 1 =>
            let wr := self.ws wix
            if imask &&& wr.mask ≠ 0 ∨ wr.ev.all isEmpty then
              takeLoop isEmpty imask fuel wr.wlink
                { self.store self.wpprev wix with wpprev := .wlink wix }
            else
              takeLoop isEmpty imask fuel wr.wlink
                { self.store self.fdpprev wix with wtail := wix, fdpprev := .wlink wix }

/-- `take_watch_list`, with the head of the list that is taken. -/
def takeWatchList (self : FdEventSet β ε) (isEmpty : ε → Bool) (fd : BitVec 32)
    (imask : FdEvent) (epoch : BitVec 32) : Option (FdEventSet β ε × Nat) :=
  let ufd := fd.toNat
  if self.fdrCapacity ≤ ufd then some (self, linkClean)
  else
    let fdi := self.fdrs ufd
    if fdi.whead = linkClean ∨ epoch ≠ 0 ∧ epoch ≠ fdi.epoch then some (self, linkClean)
    else
      let start : Taking ε := ⟨linkClean, fdi.whead, linkClean, self.ws, .taken, .kept⟩
      (takeLoop isEmpty imask self.wsSize fdi.whead start).map fun ended =>
        let ended := (ended.store ended.fdpprev linkClean).store ended.wpprev linkClean
        let left : FdEventSet β ε := { self with
          ws := ended.ws
          fdrs := Function.update self.fdrs ufd
            { fdi with whead := ended.fdWhead, wtail := ended.wtail } }
        (if ended.whead ≠ linkClean then left.queueUpdate ufd else left, ended.whead)

/-- A record is put on the free list. -/
def release (self : FdEventSet β ε) (wix : Nat) : FdEventSet β ε :=
  { self with
    ws := Function.update self.ws wix { self.ws wix with ev := none, wlink := self.freeWlink }
    freeWlink := wix }

/-- `pop_watch_list_event`: the set, the advanced link, the event and the user flags that
the event is given, if any. -/
def popWatchListEvent (self : FdEventSet β ε) (wix : Nat) (mask : FdEvent) :
    FdEventSet β ε × Nat × Option ε × Option FdEvent :=
  let wr := self.ws wix
  (self.release wix, wr.wlink, wr.ev, if wr.ev.isSome ∧ mask ≠ 0 then some mask else none)

/-! ## Watches and closing -/

/-- The loop of `fd_close`, with the events it triggers. -/
def closeLoop (ufd : Nat) : Nat → FdEventSet β ε → Option (FdEventSet β ε × List ε)
  | fuel, self =>
      let wix := (self.fdrs ufd).whead
      if wix = linkClean then some (self, [])
      else match fuel with
        | 0 => none
        | fuel + 1 =>
            let wr := self.ws wix
            let left := { self.release wix with
              fdrs := Function.update self.fdrs ufd { self.fdrs ufd with whead := wr.wlink } }
            (closeLoop ufd fuel left).map fun rest => (rest.1, wr.ev.toList ++ rest.2)

/-- What `fd_close` returns, and the events it triggers. -/
structure Closed (β : Type u) (ε : Type v) where
  result : Option (β × BitVec 32)
  triggered : List ε

/-- `fd_close`; `closed body` is `body->fileno() < 0`. -/
def fdClose (self : FdEventSet β ε) (closed : β → Bool) (fd : BitVec 32) :
    Option (FdEventSet β ε × Closed β ε) :=
  let ufd := fd.toNat
  if self.fdrCapacity ≤ ufd then some (self, ⟨none, []⟩)
  else match (self.fdrs ufd).body with
    | none => some (self, ⟨none, []⟩)
    | some body =>
        if closed body then
          (closeLoop ufd self.wsSize self).map fun (left, triggered) =>
            let fdi := left.fdrs ufd
            let left := { left with
              fdrs := Function.update left.fdrs ufd
                { fdi with wtail := linkClean, epoch := fdi.epoch + 1, body := none } }
            (left.queueUpdate ufd, ⟨some (body, fdi.epoch), triggered⟩)
        else some (self, ⟨none, []⟩)

/-- A record for a watch: from the free list, or a new one. -/
def newRecord (self : FdEventSet β ε) (imask : FdEvent) : FdEventSet β ε × Nat :=
  let wix := self.freeWlink
  if wix ≠ linkClean then
    ({ self with
        freeWlink := (self.ws wix).wlink
        ws := Function.update self.ws wix
          { self.ws wix with mask := imask, wlink := linkClean } }, wix)
  else
    ({ self with
        ws := Function.update self.ws (self.wsSize + 1) ⟨none, imask, linkClean⟩
        wsSize := self.wsSize + 1 }, self.wsSize + 1)

/-- A record is put behind the others of its descriptor, and its event is constructed. -/
def linkRecord (self : FdEventSet β ε) (ufd wix : Nat) (ev : ε) : FdEventSet β ε :=
  let fdi := self.fdrs ufd
  let linked : FdEventSet β ε :=
    if fdi.whead ≠ linkClean then
      { self with
        ws := writeLink self.ws fdi.wtail wix
        fdrs := Function.update self.fdrs ufd { fdi with wtail := wix } }
    else
      { self with fdrs := Function.update self.fdrs ufd { fdi with whead := wix, wtail := wix } }
  { linked with ws := Function.update linked.ws wix { linked.ws wix with ev := some ev } }

/-- The part of `watch` that appends a `watchrec`. -/
def appendWatch (self : FdEventSet β ε) (ufd : Nat) (imask : FdEvent) (ev : ε) :
    FdEventSet β ε :=
  let (left, wix) := self.newRecord imask
  left.linkRecord ufd wix ev

/-- The descriptor bodies that `watch` stops and starts listening to, and the events of an
abandoned body that it triggers. -/
structure Watched (β : Type u) (ε : Type v) where
  triggered : List ε
  removed : Option β
  added : Option β

/-- `watch`, which returns `ev`.  It is undefined when the descriptor belongs to another
body that has not been closed: then `fd_close` returns nothing, which is dereferenced. -/
def watch [DecidableEq β] (self : FdEventSet β ε) (closed : β → Bool) (fd : BitVec 32)
    (imask : FdEvent) (body : β) (ev : ε) : Option (FdEventSet β ε × Watched β ε) :=
  if fd.slt 0 ∨ imask = 0 then some (self, ⟨[], none, none⟩)
  else
    let ufd := fd.toNat
    let self := if self.fdrCapacity ≤ ufd then self.hardEnsure ufd else self
    let ensured : Option (FdEventSet β ε × Watched β ε) :=
      if (self.fdrs ufd).body = some body then some (self, ⟨[], none, none⟩)
      else
        let emptied : Option (FdEventSet β ε × List ε × Option β) :=
          if (self.fdrs ufd).body.isSome then
            (self.fdClose closed fd).bind fun (left, fx) =>
              fx.result.map fun result => (left, fx.triggered, some result.1)
          else some (self, [], none)
        emptied.map fun (left, triggered, removed) =>
          ({ left with
              fdrs := Function.update left.fdrs ufd { left.fdrs ufd with body := some body } },
            ⟨triggered, removed, some body⟩)
    ensured.map fun (left, watched) =>
      ((left.queueUpdate ufd).appendWatch ufd imask ev, watched)

/-! ## Questions -/

/-- The loop of `next_known`. -/
def knownLoop (self : FdEventSet β ε) (isEmpty : ε → Bool) :
    Nat → Nat → Option (Option FdUpdate)
  | fuel, ufd =>
      if self.fdrCapacity ≤ ufd then some none
      else match fuel with
        | 0 => none
        | fuel + 1 =>
            let fdr := self.fdrs ufd
            if fdr.whead ≠ linkClean then
              (self.watchListMask isEmpty fdr.whead).map fun mask =>
                some ⟨BitVec.ofNat 32 ufd, mask, fdr.epoch⟩
            else knownLoop self isEmpty fuel (ufd + 1)

/-- `next_known`. -/
def nextKnown (self : FdEventSet β ε) (isEmpty : ε → Bool) (fd : BitVec 32) :
    Option (Option FdUpdate) :=
  self.knownLoop isEmpty self.fdrCapacity (fd + 1).toNat

/-- `fd_mask`. -/
def fdMask (self : FdEventSet β ε) (isEmpty : ε → Bool) (fd : BitVec 32) : Option FdEvent :=
  let ufd := fd.toNat
  if self.fdrCapacity ≤ ufd then some 0
  else self.watchListMask isEmpty (self.fdrs ufd).whead

end FdEventSet

end DoomDraft.Cotamer
