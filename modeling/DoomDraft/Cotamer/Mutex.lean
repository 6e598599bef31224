import Mathlib.Data.BitVec
import Mathlib.Data.List.Perm.Basic
import Mathlib.Logic.Function.Basic
import DoomDraft.Foundation.Transition

/-!
# The coroutine mutex

A `mutex` is one atomic word and a queue.  The word counts the locks that are held,
says whether the next waiter wants the lock shared, and has a latch bit under which
a thread works on the queue.  Threads are interleaved at their accesses to the word:
a thread that holds the latch changes the queue in one step, and another one stores
the word.
-/

namespace DoomDraft.Cotamer

universe u

/-- `latch_type`. -/
abbrev LatchType := BitVec 32

/-- `mf_latch`. -/
def mfLatch : LatchType := 1

/-- `mf_next_excl`. -/
def mfNextExcl : LatchType := 2

/-- `mf_next_shared`. -/
def mfNextShared : LatchType := 4

/-- `mfm_next`. -/
def mfmNext : LatchType := 6

/-- `mf_lock_excl`. -/
def mfLockExcl : LatchType := 8

/-- `mf_lock_shared`. -/
def mfLockShared : LatchType := 16

/-- A lock that has been asked for: its number in the order in which requests reached
the mutex, whether it is shared, and whether a flag is to be set when it is granted. -/
structure Ticket where
  id : Nat
  shared : Bool
  notify : Bool
  deriving DecidableEq

/-- The calls of a mutex; `lock` and `tryLock` are given what becomes of their ticket. -/
inductive MutexCall where
  | lock (shared notify : Bool)
  | tryLock (shared : Bool)
  | unlock (ticket : Ticket)
  deriving DecidableEq

/-- Where a thread is in a call: spinning in `latch`, with the latch, about to store
the word in `unlatch`, or about to exchange the word that it has loaded. -/
inductive MutexPc where
  | idle
  | wants (call : MutexCall)
  | entered (call : MutexCall) (l : LatchType)
  | leaving (l : LatchType)
  | swaps (call : MutexCall) (l : LatchType)
  deriving DecidableEq

/-- A mutex with the threads that use it. -/
structure Mutex (τ : Type u) where
  /-- `latch_`. -/
  latch : LatchType
  /-- `waiters_`. -/
  waiters : List Ticket
  pc : τ → MutexPc
  /-- Waiters whose event nobody refers to any more. -/
  gone : List Ticket
  /-- Locks that have been granted and not released. -/
  locked : List Ticket
  /-- Locks for which `unlock` has been called. -/
  unlocking : List Ticket
  /-- All locks ever granted, in order. -/
  granted : List Ticket
  /-- Locks whose flag has been set. -/
  notified : List Ticket
  /-- How many requests have reached the mutex. -/
  count : Nat

namespace Mutex

variable {τ : Type u}

/-- A mutex as it is constructed. -/
def construct : Mutex τ where
  latch := 0
  waiters := []
  pc := fun _ => .idle
  gone := []
  locked := []
  unlocking := []
  granted := []
  notified := []
  count := 0

/-- `allow`. -/
def allow (shared : Bool) (l : LatchType) : Bool :=
  if shared then l &&& mfLockExcl = 0 else l < mfLockExcl

/-- What a lock adds to the word. -/
def lockBits (shared : Bool) : LatchType :=
  if shared then mfLockShared else mfLockExcl

/-- Grant a lock. -/
def grant (self : Mutex τ) (ticket : Ticket) : Mutex τ :=
  { self with
    locked := ticket :: self.locked
    granted := self.granted ++ [ticket]
    notified := if ticket.notify then self.notified ++ [ticket] else self.notified }

/-- The loop of `notify_locked` over the waiters, with the word. -/
def notifyLoop : List Ticket → Mutex τ → LatchType → Mutex τ × LatchType
  | [], self, l => ({ self with waiters := [] }, l)
  | fw :: rest, self, l =>
      if fw ∈ self.gone then notifyLoop rest self l
      else if allow fw.shared l then
        notifyLoop rest (self.grant fw) (l + lockBits fw.shared)
      else ({ self with waiters := fw :: rest }, l)

/-- `notify_locked`. -/
def notifyLocked (self : Mutex τ) (l : LatchType) : Mutex τ × LatchType :=
  notifyLoop self.waiters self l

/-- `lock_impl` between `latch` and `unlatch`. -/
def lockImpl (self : Mutex τ) (shared notify : Bool) (l : LatchType) : Mutex τ × LatchType :=
  let ticket : Ticket := ⟨self.count, shared, notify⟩
  let (self, l) := self.notifyLocked l
  let self := { self with count := self.count + 1 }
  if self.waiters = [] ∧ allow shared l then (self.grant ticket, l + lockBits shared)
  else ({ self with waiters := self.waiters ++ [ticket] }, l)

/-- `unlock_impl` between `latch` and `unlatch`. -/
def unlockImpl (self : Mutex τ) (ticket : Ticket) (l : LatchType) : Mutex τ × LatchType :=
  notifyLocked
    { self with
      locked := self.locked.erase ticket
      unlocking := self.unlocking.erase ticket }
    (l - lockBits ticket.shared)

/-- The word that `unlatch` stores. -/
def unlatched (self : Mutex τ) (l : LatchType) : LatchType :=
  match self.waiters with
  | [] => l
  | fw :: _ => l + if fw.shared then mfNextShared else mfNextExcl

/-- Whether `unlock` and `unlock_shared` try their fast path. -/
def fastUnlock (shared : Bool) (l : LatchType) : Bool :=
  if shared then
    l &&& (mfLatch ||| mfNextShared) = 0 ∧ (l &&& mfNextExcl = 0 ∨ 2 * mfLockShared ≤ l)
  else l &&& (mfLatch ||| mfmNext) = 0

/-- Whether `try_lock_shared` gives up at once. -/
def busyShared (l : LatchType) : Bool :=
  l &&& (mfLatch ||| mfmNext ||| mfLockExcl) ≠ 0

section Steps

variable [DecidableEq τ]

/-- Thread `i` goes on at `pc`. -/
def goTo (self : Mutex τ) (i : τ) (pc : MutexPc) : Mutex τ :=
  { self with pc := Function.update self.pc i pc }

/-- Thread `i` makes a call.  A lock is released once, and only while it is held. -/
def begin (self : Mutex τ) (i : τ) (call : MutexCall) : Option (Mutex τ) :=
  if self.pc i ≠ .idle then none
  else match call with
    | .lock .. => some (self.goTo i (.wants call))
    | .tryLock false => some (self.goTo i (.swaps call 0))
    | .tryLock true =>
        if busyShared self.latch then some self else some (self.goTo i (.swaps call self.latch))
    | .unlock ticket =>
        if ticket ∈ self.locked ∧ ticket ∉ self.unlocking then
          let self := { self with unlocking := ticket :: self.unlocking }
          if fastUnlock ticket.shared self.latch then
            some (self.goTo i (.swaps call self.latch))
          else some (self.goTo i (.wants call))
        else none

/-- The next step of thread `i` in its call; `none` where it spins. -/
def advance (self : Mutex τ) (i : τ) : Option (Mutex τ) :=
  match self.pc i with
  | .idle => none
  | .wants call =>
      if self.latch &&& mfLatch = 0 then
        some ({ self with latch := self.latch ||| mfLatch }.goTo i
          (.entered call (self.latch &&& ~~~mfmNext)))
      else none
  | .entered call l =>
      let (after, l) :=
        match call with
        | .lock shared notify => self.lockImpl shared notify l
        | .unlock ticket => self.unlockImpl ticket l
        | .tryLock _ => (self, l)
      some (after.goTo i (.leaving l))
  | .leaving l => some ({ self with latch := self.unlatched l }.goTo i .idle)
  | .swaps call l =>
      if self.latch = l then
        match call with
        | .tryLock shared =>
            let ticket : Ticket := ⟨self.count, shared, false⟩
            let self := { self with count := self.count + 1, latch := l + lockBits shared }
            some ((self.grant ticket).goTo i .idle)
        | .unlock ticket =>
            some ({ self with
              latch := l - lockBits ticket.shared
              locked := self.locked.erase ticket
              unlocking := self.unlocking.erase ticket }.goTo i .idle)
        | .lock .. => none
      else match call with
        | .tryLock _ => some (self.goTo i .idle)
        | .unlock _ => some (self.goTo i (.wants call))
        | .lock .. => none

end Steps

end Mutex

/-- What may happen next. -/
inductive MutexAction (τ : Type u) where
  | begin (i : τ) (call : MutexCall)
  | advance (i : τ)
  | abandon (ticket : Ticket)

/-- One step of a thread, or a waiter whose event is dropped. -/
def Mutex.step {τ : Type u} [DecidableEq τ] (self : Mutex τ) : MutexAction τ → Option (Mutex τ)
  | .begin i call => self.begin i call
  | .advance i => self.advance i
  | .abandon ticket =>
      if ticket ∈ self.waiters then some { self with gone := ticket :: self.gone } else none

end DoomDraft.Cotamer
