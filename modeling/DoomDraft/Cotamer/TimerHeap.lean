import Mathlib.Data.BitVec
import Mathlib.Data.Prod.Lex
import DoomDraft.Foundation.Heap
import DoomDraft.Foundation.Transition

/-!
# The timer heap

The driver keeps its timers in a heap of four children a node.  Timers of one time
are ordered by a 32-bit number that is counted up with each of them and compared
circularly.  A timer that nobody waits for may be dropped early: when the heap is
large, each insertion looks at pseudorandom positions for such timers.
-/

namespace DoomDraft.Cotamer

universe u

/-- `circular_int<unsigned>`. -/
abbrev CircularInt := BitVec 32

/-- `circular_int::less`. -/
def CircularInt.less (a b : CircularInt) : Bool :=
  (a - b).slt 0

/-- `timer_heap::element`. -/
structure Element (α : Type u) where
  when : Int
  order : CircularInt
  value : α

/-- `element::operator<`. -/
def Element.before {α : Type u} (self x : Element α) : Bool :=
  self.when < x.when ∨ self.when = x.when ∧ self.order.less x.order

/-! ## The shape of the tree -/

/-- `heap_parent`. -/
def heapParent (arity i : Nat) : Nat :=
  (i - if arity = 2 then 1 else 0) / arity

/-- `heap_first_child`. -/
def heapFirstChild (arity i : Nat) : Nat :=
  i * arity + if arity = 2 ∨ i = 0 then 1 else 0

/-- `heap_last_child`, before it is cut off at the size of the heap. -/
def heapLastChild (arity i : Nat) : Nat :=
  i * arity + arity + if arity = 2 then 1 else 0

theorem heapParent_lt {arity : Nat} (atLeast : 2 ≤ arity) (i : Nat) (positive : 0 < i) :
    heapParent arity i < i := by
  have bound : heapParent arity i ≤ i / arity := Nat.div_le_div_right (Nat.sub_le _ _)
  exact bound.trans_lt (Nat.div_lt_self positive atLeast)

theorem heap_children {arity : Nat} (atLeast : 2 ≤ arity) (i t : Nat) :
    heapFirstChild arity i ≤ t ∧ t < heapLastChild arity i ↔ 0 < t ∧ heapParent arity t = i := by
  have positive : 0 < arity := Nat.lt_of_lt_of_le Nat.two_pos atLeast
  unfold heapFirstChild heapLastChild heapParent
  by_cases binary : arity = 2
  · subst binary
    simp only [true_or, if_true]
    omega
  · have place : t / arity = i ↔ i * arity ≤ t ∧ t < i * arity + arity := by
      rw [Nat.div_eq_iff positive]
      omega
    simp only [binary, false_or, if_false, Nat.add_zero, Nat.sub_zero, place]
    rcases Nat.eq_zero_or_pos i with rfl | behind
    · simp only [if_true]
      omega
    · have large : 0 < i * arity := Nat.mul_pos behind positive
      simp only [behind.ne', if_false]
      omega

/-- The tree of an arity that `timer_heap` allows. -/
def heapShape (arity : Nat) (atLeast : 2 ≤ arity) : HeapShape where
  parent := heapParent arity
  firstChild := heapFirstChild arity
  lastChild := heapLastChild arity
  parent_lt := heapParent_lt atLeast
  mem_children := heap_children atLeast

/-- `timer_heap_traits::arity`. -/
def arity : Nat := 4

theorem two_le_arity : 2 ≤ arity := by
  decide

/-- The tree of a `timer_heap`. -/
def timerShape : HeapShape := heapShape arity two_le_arity

/-! ## Operations -/

/-- `timer_heap`: its cells, of which the first `size` are in use. -/
structure TimerHeap (α : Type u) where
  es : Nat → Element α
  size : Nat
  capacity : Nat
  order : CircularInt
  cullRand : BitVec 32

namespace TimerHeap

variable {α : Type u}

/-- A heap as it is constructed, over arbitrary memory. -/
def construct (memory : Nat → Element α) : TimerHeap α where
  es := memory
  size := 0
  capacity := 0
  order := 0
  cullRand := 8173

/-- `top`, with its assertion. -/
def top? (self : TimerHeap α) : Option (Element α) :=
  if self.size ≠ 0 then some (self.es 0) else none

/-- `hard_cull`. -/
def hardCull (self : TimerHeap α) (pos : Nat) : TimerHeap α :=
  let size := self.size - 1
  if pos = size then { self with size := size }
  else
    let es := HeapShape.swapCells self.es size pos
    if pos = 0 ∨ (es pos).before (es (timerShape.parent pos)) = false then
      { self with size := size, es := timerShape.siftDown Element.before size size es pos }
    else
      { self with size := size, es := timerShape.siftUp Element.before pos es pos }

/-- `pop`. -/
def pop (self : TimerHeap α) : TimerHeap α := self.hardCull 0

/-- The loop of `cull`. -/
def cullLoop (isEmpty : α → Bool) : Nat → TimerHeap α → TimerHeap α
  | 0, self => self
  | fuel + 1, self =>
      if self.size ≠ 0 ∧ isEmpty (self.es 0).value then cullLoop isEmpty fuel (self.hardCull 0)
      else self

/-- `cull`. -/
def cull (self : TimerHeap α) (isEmpty : α → Bool) : TimerHeap α :=
  cullLoop isEmpty self.size self

/-- `clear`. -/
def clear (self : TimerHeap α) : TimerHeap α := { self with size := 0 }

/-- `expand`. -/
def expand (self : TimerHeap α) : TimerHeap α :=
  { self with capacity := if self.capacity ≠ 0 then self.capacity * 4 + 3 else 31 }

/-- The loop of `emplace` that looks for empty elements. -/
def cullRandomly (isEmpty : α → Bool) : Nat → TimerHeap α → TimerHeap α
  | 0, self => self
  | fuel + 1, self =>
      if 32 ≤ self.size then
        let pos := self.cullRand.toNat % self.size
        let self := { self with cullRand := self.cullRand * 1664525 + 1013904223 }
        if isEmpty (self.es pos).value then cullRandomly isEmpty fuel (self.hardCull pos)
        else self
      else self

/-- `emplace`. -/
def emplace (self : TimerHeap α) (isEmpty : α → Bool) (when : Int) (value : α) : TimerHeap α :=
  let self := cullRandomly isEmpty self.size self
  let pos := self.size
  let self := if pos = self.capacity then self.expand else self
  let order := self.order + 1
  let es := Function.update self.es pos ⟨when, order, value⟩
  { self with
    es := timerShape.siftUp Element.before pos es pos
    size := self.size + 1
    order := order }

end TimerHeap

/-- A call of a heap.  What is empty is asked anew in each call. -/
inductive TimerCall (α : Type u) where
  | emplace (isEmpty : α → Bool) (when : Int) (value : α)
  | pop
  | cull (isEmpty : α → Bool)
  | clear

/-- A call; `none` where the heap asserts that it is not empty. -/
def TimerHeap.step {α : Type u} (self : TimerHeap α) : TimerCall α → Option (TimerHeap α)
  | .emplace isEmpty when value => some (self.emplace isEmpty when value)
  | .pop => if self.size ≠ 0 then some self.pop else none
  | .cull isEmpty => some (self.cull isEmpty)
  | .clear => some self.clear

/-! ## The queue that a heap implements -/

/-- A timer with its number among all that have been set. -/
structure Timer (α : Type u) where
  when : Int
  serial : Nat
  value : α

/-- Timers are due by their times, and at one time in the order in which they
have been set. -/
def Timer.due {α : Type u} (timer : Timer α) : Int ×ₗ Nat :=
  toLex (timer.when, timer.serial)

/-- The timers that are set. -/
structure TimerQueue (α : Type u) where
  timers : Multiset (Timer α)
  /-- How many timers have been set. -/
  count : Nat

namespace TimerQueue

variable {α : Type u}

/-- No other timer is due before this one. -/
def IsFirst (queue : TimerQueue α) (timer : Timer α) : Prop :=
  timer ∈ queue.timers ∧ ∀ other ∈ queue.timers, timer.due ≤ other.due

/-- What a call may do: a timer is lost only if it is empty. -/
inductive Steps : TimerQueue α → TimerCall α → TimerQueue α → Prop
  | emplace (kept dropped : Multiset (Timer α)) (count : Nat) (isEmpty : α → Bool) (when : Int)
      (value : α) (empty : ∀ timer ∈ dropped, isEmpty timer.value = true) :
      Steps ⟨kept + dropped, count⟩ (.emplace isEmpty when value)
        ⟨⟨when, count + 1, value⟩ ::ₘ kept, count + 1⟩
  | pop (kept : Multiset (Timer α)) (first : Timer α) (count : Nat)
      (isFirst : ∀ timer ∈ kept, first.due ≤ timer.due) :
      Steps ⟨first ::ₘ kept, count⟩ .pop ⟨kept, count⟩
  | cull (kept dropped : Multiset (Timer α)) (count : Nat) (isEmpty : α → Bool)
      (empty : ∀ timer ∈ dropped, isEmpty timer.value = true)
      (before : ∀ timer ∈ dropped, ∀ other ∈ kept, timer.due ≤ other.due)
      (nonempty : ∀ first, IsFirst ⟨kept, count⟩ first → isEmpty first.value = false) :
      Steps ⟨kept + dropped, count⟩ (.cull isEmpty) ⟨kept, count⟩
  | clear (all : Multiset (Timer α)) (count : Nat) : Steps ⟨all, count⟩ .clear ⟨0, count⟩

/-- The calls of a run in order. -/
inductive Runs : TimerQueue α → List (TimerCall α) → TimerQueue α → Prop
  | done (queue : TimerQueue α) : Runs queue [] queue
  | next {queue middle last : TimerQueue α} {call : TimerCall α} {calls : List (TimerCall α)}
      (first : Steps queue call middle) (rest : Runs middle calls last) :
      Runs queue (call :: calls) last

end TimerQueue

/-! ## Circular order -/

/-- How many numbers ago a number was given. -/
def age (now order : CircularInt) : Nat :=
  (now - order).toNat

/-- Among numbers that are not too old, the older one is less. -/
theorem less_iff_age {now a b : CircularInt} (youngA : age now a < 2 ^ 31)
    (youngB : age now b < 2 ^ 31) : a.less b = true ↔ age now b < age now a := by
  unfold age at *
  have difference : a - b = (now - b) - (now - a) := (sub_sub_sub_cancel_left b a now).symm
  rw [CircularInt.less, difference, BitVec.ofNat_eq_ofNat, BitVec.slt_zero_iff_msb_cond,
    BitVec.msb_eq_decide, decide_eq_true_iff]
  generalize now - b = x, now - a = y at *
  bv_omega

variable {α : Type u}

/-- The element of a timer. -/
def Timer.element (timer : Timer α) : Element α :=
  ⟨timer.when, BitVec.ofNat 32 timer.serial, timer.value⟩

/-- The number of a timer is at most `count`, and not too far behind it. -/
def Timer.Live (count : Nat) (timer : Timer α) : Prop :=
  timer.serial ≤ count ∧ count < timer.serial + 2 ^ 31

/-- Elements by their times and ages. -/
def Element.key (now : CircularInt) (self : Element α) : Int ×ₗ Int :=
  toLex (self.when, -(age now self.order : Int))

theorem Timer.Live.age_element {count : Nat} {timer : Timer α} (live : timer.Live count) :
    age (BitVec.ofNat 32 count) timer.element.order = count - timer.serial := by
  obtain ⟨le, near⟩ := live
  have small : count - timer.serial < 2 ^ 32 := by omega
  have difference : BitVec.ofNat 32 count - BitVec.ofNat 32 timer.serial =
      BitVec.ofNat 32 (count - timer.serial) := by
    rw [sub_eq_iff_eq_add, ← BitVec.ofNat_add, Nat.sub_add_cancel le]
  rw [age, Timer.element, difference, BitVec.toNat_ofNat, Nat.mod_eq_of_lt small]

theorem Timer.Live.key_le_iff {count : Nat} {timer other : Timer α} (live : timer.Live count)
    (otherLive : other.Live count) :
    timer.element.key (BitVec.ofNat 32 count) ≤ other.element.key (BitVec.ofNat 32 count) ↔
      timer.due ≤ other.due := by
  rw [Element.key, Element.key, live.age_element, otherLive.age_element, Timer.due, Timer.due,
    Prod.Lex.toLex_le_toLex, Prod.Lex.toLex_le_toLex]
  have le := live.1
  have otherLe := otherLive.1
  dsimp only [Timer.element]
  omega

theorem Timer.Live.before_iff {count : Nat} {timer other : Timer α} (live : timer.Live count)
    (otherLive : other.Live count) :
    timer.element.before other.element = true ↔
      timer.element.key (BitVec.ofNat 32 count) < other.element.key (BitVec.ofNat 32 count) := by
  have young : age (BitVec.ofNat 32 count) timer.element.order < 2 ^ 31 := by
    rw [live.age_element]
    have near := live.2
    omega
  have otherYoung : age (BitVec.ofNat 32 count) other.element.order < 2 ^ 31 := by
    rw [otherLive.age_element]
    have near := otherLive.2
    omega
  rw [Element.before, decide_eq_true_iff, less_iff_age young otherYoung, Element.key, Element.key,
    Prod.Lex.toLex_lt_toLex]
  omega

/-! ## Each operation against the queue -/

/-- A heap that holds the timers of a queue. -/
structure Implements (heap : TimerHeap α) (queue : TimerQueue α) : Prop where
  contents : HeapShape.contents heap.es heap.size = queue.timers.map Timer.element
  order : heap.order = BitVec.ofNat 32 queue.count
  ordered : HeapShape.Ordered timerShape (Element.key heap.order) heap.es heap.size
  capacity : heap.size ≤ heap.capacity
  distinct : (queue.timers.map Timer.serial).Nodup
  live : ∀ timer ∈ queue.timers, timer.Live queue.count

variable {heap : TimerHeap α} {queue : TimerQueue α}

theorem Implements.compares (implements : Implements heap queue) :
    HeapShape.Compares Element.before (Element.key heap.order)
      (HeapShape.contents heap.es heap.size) := by
  rw [implements.contents, implements.order]
  intro a aMember b bMember
  obtain ⟨timer, member, rfl⟩ := Multiset.mem_map.mp aMember
  obtain ⟨other, otherMember, rfl⟩ := Multiset.mem_map.mp bMember
  exact (implements.live timer member).before_iff (implements.live other otherMember)

theorem Implements.exists_timer (implements : Implements heap queue) {pos : Nat}
    (within : pos < heap.size) : ∃ timer ∈ queue.timers, timer.element = heap.es pos := by
  have member : heap.es pos ∈ HeapShape.contents heap.es heap.size :=
    HeapShape.mem_contents.mpr ⟨pos, within, rfl⟩
  rw [implements.contents] at member
  exact Multiset.mem_map.mp member

theorem Implements.exists_pos (implements : Implements heap queue) {timer : Timer α}
    (member : timer ∈ queue.timers) : ∃ pos < heap.size, heap.es pos = timer.element := by
  have stored : timer.element ∈ HeapShape.contents heap.es heap.size := by
    rw [implements.contents]
    exact Multiset.mem_map_of_mem Timer.element member
  exact HeapShape.mem_contents.mp stored

/-- The timer at the top is due first. -/
theorem Implements.isFirst_iff (implements : Implements heap queue) {timer : Timer α}
    (member : timer ∈ queue.timers) (isTop : timer.element = heap.es 0) :
    queue.IsFirst timer := by
  refine ⟨member, fun other otherMember => ?_⟩
  obtain ⟨pos, within, isOther⟩ := implements.exists_pos otherMember
  have least := implements.ordered.root_le pos within
  rw [isOther, ← isTop, implements.order] at least
  exact ((implements.live timer member).key_le_iff (implements.live other otherMember)).mp least

theorem Implements.eq_of_due (implements : Implements heap queue) {timer other : Timer α}
    (member : timer ∈ queue.timers) (otherMember : other ∈ queue.timers)
    (same : timer.due = other.due) : timer = other := by
  have serials : timer.serial = other.serial := congrArg (fun due => (ofLex due).2) same
  exact Multiset.inj_on_of_nodup_map implements.distinct timer member other otherMember serials

theorem Implements.size_eq (implements : Implements heap queue) :
    heap.size = Multiset.card queue.timers := by
  have sizes := congrArg Multiset.card implements.contents
  rwa [HeapShape.contents, Multiset.card_map, Multiset.card_map, Multiset.card_range] at sizes

theorem Implements.top?_eq_some_iff (implements : Implements heap queue) {top : Element α} :
    heap.top? = some top ↔ ∃ timer, queue.IsFirst timer ∧ timer.element = top := by
  rw [TimerHeap.top?]
  constructor
  · intro found
    split at found
    · rename_i nonempty
      obtain rfl := Option.some.inj found
      obtain ⟨timer, member, isTop⟩ := implements.exists_timer (Nat.pos_of_ne_zero nonempty)
      exact ⟨timer, implements.isFirst_iff member isTop, isTop⟩
    · contradiction
  · rintro ⟨timer, isFirst, rfl⟩
    obtain ⟨pos, within, -⟩ := implements.exists_pos isFirst.1
    have nonempty : heap.size ≠ 0 := by omega
    obtain ⟨other, member, isTop⟩ := implements.exists_timer (Nat.pos_of_ne_zero nonempty)
    have otherFirst := implements.isFirst_iff member isTop
    have same := implements.eq_of_due member isFirst.1
      (le_antisymm (otherFirst.2 timer isFirst.1) (isFirst.2 other member))
    rw [if_pos nonempty, ← isTop, same]

/-- What `hard_cull` does: the last element is dropped, or it takes the place of the
one at `pos` and moves down or up from there. -/
theorem hardCull_cases {heap : TimerHeap α} {pos last : Nat} (sizeEq : heap.size = last + 1)
    (within : pos ≤ last) :
    pos = last ∧ heap.hardCull pos = { heap with size := last } ∨
      pos < last ∧ ∃ es, heap.hardCull pos = { heap with size := last, es := es } ∧
        ((pos = 0 ∨ (HeapShape.swapCells heap.es last pos pos).before
            (HeapShape.swapCells heap.es last pos (timerShape.parent pos)) = false) ∧
          es = timerShape.siftDown Element.before last last
            (HeapShape.swapCells heap.es last pos) pos ∨
        0 < pos ∧ (HeapShape.swapCells heap.es last pos pos).before
            (HeapShape.swapCells heap.es last pos (timerShape.parent pos)) = true ∧
          es = timerShape.siftUp Element.before pos
            (HeapShape.swapCells heap.es last pos) pos) := by
  unfold TimerHeap.hardCull
  rw [show heap.size - 1 = last by omega]
  dsimp only
  by_cases isLast : pos = last
  · exact Or.inl ⟨isLast, by rw [if_pos isLast]⟩
  · refine Or.inr ⟨by omega, ?_⟩
    rw [if_neg isLast]
    split
    · rename_i down
      exact ⟨_, rfl, Or.inl ⟨down, rfl⟩⟩
    · rename_i up
      rw [not_or, Bool.not_eq_false] at up
      exact ⟨_, rfl, Or.inr ⟨Nat.pos_of_ne_zero up.1, up.2, rfl⟩⟩

theorem hardCull_frame {pos : Nat} (within : pos < heap.size) :
    (heap.hardCull pos).size = heap.size - 1 ∧ (heap.hardCull pos).order = heap.order ∧
      (heap.hardCull pos).capacity = heap.capacity := by
  obtain ⟨last, sizeEq⟩ := Nat.exists_eq_add_one_of_ne_zero (show heap.size ≠ 0 by omega)
  rcases hardCull_cases sizeEq (show pos ≤ last by omega) with ⟨-, after⟩ | ⟨-, es, after, -⟩
  · rw [after, sizeEq]
    exact ⟨rfl, rfl, rfl⟩
  · rw [after, sizeEq]
    exact ⟨rfl, rfl, rfl⟩

/-- All but the element at `pos` are left. -/
theorem contents_hardCull {pos : Nat} (within : pos < heap.size) :
    HeapShape.contents heap.es heap.size =
      heap.es pos ::ₘ HeapShape.contents (heap.hardCull pos).es (heap.hardCull pos).size := by
  obtain ⟨last, sizeEq⟩ := Nat.exists_eq_add_one_of_ne_zero (show heap.size ≠ 0 by omega)
  have moved : HeapShape.contents heap.es heap.size =
      heap.es pos ::ₘ HeapShape.contents (HeapShape.swapCells heap.es last pos) last := by
    rw [← HeapShape.contents_swapCells (show last < heap.size by omega) within, sizeEq,
      HeapShape.contents_succ, HeapShape.swapCells_left]
  rcases hardCull_cases sizeEq (show pos ≤ last by omega) with
    ⟨isLast, after⟩ | ⟨before, es, after, sifted⟩
  · rw [after, sizeEq, HeapShape.contents_succ, isLast]
  · rw [after, moved]
    rcases sifted with ⟨-, rfl⟩ | ⟨-, -, rfl⟩
    · rw [HeapShape.contents_siftDown before]
    · rw [HeapShape.contents_siftUp before]

theorem Implements.ordered_hardCull (implements : Implements heap queue) {pos : Nat}
    (within : pos < heap.size) :
    HeapShape.Ordered timerShape (Element.key heap.order) (heap.hardCull pos).es
      (heap.hardCull pos).size := by
  obtain ⟨last, sizeEq⟩ := Nat.exists_eq_add_one_of_ne_zero (show heap.size ≠ 0 by omega)
  have ordered := implements.ordered
  rcases hardCull_cases sizeEq (show pos ≤ last by omega) with
    ⟨-, after⟩ | ⟨before, es, after, sifted⟩
  · rw [after]
    exact fun i positive iLt => ordered i positive (by dsimp only at iLt; omega)
  · have compares : HeapShape.Compares Element.before (Element.key heap.order)
        (HeapShape.contents (HeapShape.swapCells heap.es last pos) last) := by
      have all := implements.compares
      rw [← HeapShape.contents_swapCells (show last < heap.size by omega) within, sizeEq,
        HeapShape.contents_succ] at all
      exact fun a aMember b bMember => all a (Multiset.mem_cons_of_mem aMember) b
        (Multiset.mem_cons_of_mem bMember)
    have parentLt : 0 < pos → timerShape.parent pos < last :=
      fun positive => (timerShape.parent_lt pos positive).trans before
    rw [sizeEq] at ordered
    have around := ordered.swapLast before
    rw [after]
    rcases sifted with ⟨down, rfl⟩ | ⟨positive, up, rfl⟩
    · refine (around.downTo fun positive => ?_).siftDown compares before (Nat.le_add_left last pos)
      have notBefore := down.resolve_left positive.ne'
      rw [← Bool.not_eq_true, compares.iff before (parentLt positive)] at notBefore
      exact not_lt.mp notBefore
    · exact (around.upTo positive ((compares.iff before (parentLt positive)).mp up)).siftUp
        compares before le_rfl

theorem Implements.hardCull (implements : Implements heap queue) {pos : Nat}
    (within : pos < heap.size) : ∃ timer kept, queue.timers = timer ::ₘ kept ∧
      timer.element = heap.es pos ∧ Implements (heap.hardCull pos) ⟨kept, queue.count⟩ := by
  obtain ⟨timer, member, isThis⟩ := implements.exists_timer within
  obtain ⟨kept, split⟩ := Multiset.exists_cons_of_mem member
  obtain ⟨size, order, capacity⟩ := hardCull_frame within
  refine ⟨timer, kept, split, isThis, ?_, ?_, ?_, ?_, ?_, ?_⟩
  · have all := implements.contents
    rw [contents_hardCull within, split, Multiset.map_cons, isThis] at all
    exact (Multiset.cons_inj_right _).mp all
  · exact order.trans implements.order
  · rw [order]
    exact implements.ordered_hardCull within
  · rw [size, capacity]
    exact (Nat.sub_le _ _).trans implements.capacity
  · have distinct := implements.distinct
    rw [split, Multiset.map_cons, Multiset.nodup_cons] at distinct
    exact distinct.2
  · exact fun other otherMember =>
      implements.live other (split ▸ Multiset.mem_cons_of_mem otherMember)

/-- `cull` drops empty timers until the first one is not empty. -/
theorem Implements.cullLoop (implements : Implements heap queue) (isEmpty : α → Bool) {fuel : Nat}
    (enough : heap.size ≤ fuel) : ∃ kept dropped, queue.timers = kept + dropped ∧
      (∀ timer ∈ dropped, isEmpty timer.value = true) ∧
      (∀ timer ∈ dropped, ∀ other ∈ kept, timer.due ≤ other.due) ∧
      Implements (TimerHeap.cullLoop isEmpty fuel heap) ⟨kept, queue.count⟩ ∧
      ∀ first, TimerQueue.IsFirst ⟨kept, queue.count⟩ first → isEmpty first.value = false := by
  induction fuel generalizing heap queue with
  | zero =>
      have noTimers : queue.timers = 0 := by
        rw [← Multiset.card_eq_zero, ← implements.size_eq]
        exact Nat.le_zero.mp enough
      refine ⟨queue.timers, 0, (add_zero _).symm, by simp, by simp, implements, ?_⟩
      rintro first ⟨member, -⟩
      rw [noTimers] at member
      exact absurd member (Multiset.notMem_zero first)
  | succ fuel ih =>
      unfold TimerHeap.cullLoop
      split
      · rename_i culls
        have nonempty := Nat.pos_of_ne_zero culls.1
        obtain ⟨first, rest, split, isTop, after⟩ := implements.hardCull nonempty
        have isFirst := implements.isFirst_iff (split ▸ Multiset.mem_cons_self first rest) isTop
        have smaller : (heap.hardCull 0).size ≤ fuel := by
          rw [(hardCull_frame nonempty).1]
          omega
        obtain ⟨kept, dropped, parts, empty, before, later, final⟩ := ih after smaller
        have isEmptyFirst : isEmpty first.value = true := by
          have value := culls.2
          rwa [← isTop] at value
        refine ⟨kept, first ::ₘ dropped, ?_, ?_, ?_, later, final⟩
        · rw [split, Multiset.add_cons]
          exact congrArg _ parts
        · exact Multiset.forall_mem_cons.mpr ⟨isEmptyFirst, empty⟩
        · refine Multiset.forall_mem_cons.mpr ⟨fun other member => ?_, before⟩
          refine isFirst.2 other (split ▸ Multiset.mem_cons_of_mem ?_)
          have parts : rest = kept + dropped := parts
          exact parts ▸ Multiset.mem_add.mpr (Or.inl member)
      · rename_i stops
        refine ⟨queue.timers, 0, (add_zero _).symm, by simp, by simp, implements, ?_⟩
        intro first isFirst
        obtain ⟨pos, within, -⟩ := implements.exists_pos isFirst.1
        have nonempty : heap.size ≠ 0 := by omega
        have isTop : heap.top? = some first.element :=
          implements.top?_eq_some_iff.mpr ⟨first, isFirst, rfl⟩
        rw [TimerHeap.top?, if_pos nonempty] at isTop
        have notEmpty : isEmpty (heap.es 0).value ≠ true := fun empty => stops ⟨nonempty, empty⟩
        rw [Option.some.inj isTop] at notEmpty
        exact Bool.eq_false_iff.mpr notEmpty

theorem Implements.withCullRand (implements : Implements heap queue) (cullRand : BitVec 32) :
    Implements { heap with cullRand := cullRand } queue :=
  { implements with }

/-- The search for empty elements drops nothing else. -/
theorem Implements.cullRandomly (implements : Implements heap queue) (isEmpty : α → Bool)
    (fuel : Nat) : ∃ kept dropped, queue.timers = kept + dropped ∧
      (∀ timer ∈ dropped, isEmpty timer.value = true) ∧
      Implements (TimerHeap.cullRandomly isEmpty fuel heap) ⟨kept, queue.count⟩ := by
  induction fuel generalizing heap queue with
  | zero => exact ⟨queue.timers, 0, (add_zero _).symm, by simp, implements⟩
  | succ fuel ih =>
      unfold TimerHeap.cullRandomly
      split
      · rename_i large
        have advanced := implements.withCullRand (heap.cullRand * 1664525 + 1013904223)
        have within : heap.cullRand.toNat % heap.size < heap.size := Nat.mod_lt _ (by omega)
        dsimp only
        split
        · rename_i empty
          obtain ⟨timer, rest, split, isThis, after⟩ := advanced.hardCull within
          obtain ⟨kept, dropped, parts, allEmpty, later⟩ := ih after
          refine ⟨kept, timer ::ₘ dropped, ?_, ?_, later⟩
          · rw [split, Multiset.add_cons]
            exact congrArg _ parts
          · refine Multiset.forall_mem_cons.mpr ⟨?_, allEmpty⟩
            have value : timer.value = (heap.es (heap.cullRand.toNat % heap.size)).value :=
              congrArg Element.value isThis
            exact value ▸ empty
        · exact ⟨queue.timers, 0, (add_zero _).symm, by simp, advanced⟩
      · exact ⟨queue.timers, 0, (add_zero _).symm, by simp, implements⟩

theorem Implements.expand (implements : Implements heap queue) (full : heap.size = heap.capacity) :
    Implements heap.expand queue ∧ heap.size < heap.expand.capacity := by
  have grows : heap.size < heap.expand.capacity := by
    rw [TimerHeap.expand, full]
    dsimp only
    split <;> omega
  exact ⟨{ implements with capacity := grows.le }, grows⟩

/-- A new timer moves up to its place. -/
theorem Implements.push (implements : Implements heap queue) (room : heap.size < heap.capacity)
    (fresh : ∀ timer ∈ queue.timers, queue.count + 1 < timer.serial + 2 ^ 31) (when : Int)
    (value : α) :
    Implements
      { heap with
        es := timerShape.siftUp Element.before heap.size
          (Function.update heap.es heap.size ⟨when, heap.order + 1, value⟩) heap.size
        size := heap.size + 1
        order := heap.order + 1 }
      ⟨⟨when, queue.count + 1, value⟩ ::ₘ queue.timers, queue.count + 1⟩ := by
  set cells := Function.update heap.es heap.size ⟨when, heap.order + 1, value⟩ with cellsEq
  have order : heap.order + 1 = BitVec.ofNat 32 (queue.count + 1) := by
    rw [implements.order, BitVec.ofNat_add]
    rfl
  have kept : ∀ i < heap.size, cells i = heap.es i :=
    fun i within => Function.update_of_ne within.ne _ _
  have stored : HeapShape.contents cells (heap.size + 1) =
      Multiset.map Timer.element (⟨when, queue.count + 1, value⟩ ::ₘ queue.timers) := by
    rw [HeapShape.contents_succ, HeapShape.contents_congr kept, implements.contents,
      Multiset.map_cons, cellsEq, Function.update_self, order]
    rfl
  have live : ∀ timer ∈ (⟨when, queue.count + 1, value⟩ : Timer α) ::ₘ queue.timers,
      timer.Live (queue.count + 1) := by
    refine Multiset.forall_mem_cons.mpr ⟨⟨le_rfl, by dsimp only; omega⟩, fun timer member => ?_⟩
    exact ⟨(implements.live timer member).1.trans (Nat.le_succ _), fresh timer member⟩
  have compares : HeapShape.Compares Element.before (Element.key (heap.order + 1))
      (HeapShape.contents cells (heap.size + 1)) := by
    rw [stored, order]
    intro a aMember b bMember
    obtain ⟨timer, member, rfl⟩ := Multiset.mem_map.mp aMember
    obtain ⟨other, otherMember, rfl⟩ := Multiset.mem_map.mp bMember
    exact (live timer member).before_iff (live other otherMember)
  have ordered : HeapShape.Ordered timerShape (Element.key (heap.order + 1)) cells heap.size := by
    -- ages have grown by one, which does not change how the old elements compare
    intro i positive within
    have above := (timerShape.parent_lt i positive).trans within
    obtain ⟨timer, member, isThis⟩ := implements.exists_timer within
    obtain ⟨parent, parentMember, isParent⟩ := implements.exists_timer above
    have old := implements.ordered i positive within
    rw [← isThis, ← isParent, implements.order,
      (implements.live parent parentMember).key_le_iff (implements.live timer member)] at old
    rw [kept i within, kept _ above, ← isThis, ← isParent, order,
      (live parent (Multiset.mem_cons_of_mem parentMember)).key_le_iff
        (live timer (Multiset.mem_cons_of_mem member))]
    exact old
  refine ⟨?_, order, ?_, room, ?_, live⟩
  · exact (HeapShape.contents_siftUp (Nat.lt_succ_self heap.size) _).trans stored
  · exact ordered.append.siftUp compares (Nat.lt_succ_self heap.size) le_rfl
  · rw [Multiset.map_cons, Multiset.nodup_cons]
    refine ⟨fun member => ?_, implements.distinct⟩
    obtain ⟨timer, isTimer, same⟩ := Multiset.mem_map.mp member
    have le := (implements.live timer isTimer).1
    dsimp only at same
    omega

/-! ## Runs -/

/-- No timer has been in the heap since 2^31 - 1 others were set. -/
def TimerHeap.Fresh (self : TimerHeap α) : TimerCall α → Prop
  | .emplace .. => ∀ i < self.size, age self.order (self.es i).order + 1 < 2 ^ 31
  | _ => True

instance decidableFresh (self : TimerHeap α) :
    ∀ call : TimerCall α, Decidable (self.Fresh call)
  | .emplace .. => Nat.decidableBallLT self.size
      fun i _ => age self.order (self.es i).order + 1 < 2 ^ 31
  | .pop | .cull _ | .clear => isTrue trivial

theorem Implements.fresh (implements : Implements heap queue)
    (fresh : ∀ i < heap.size, age heap.order (heap.es i).order + 1 < 2 ^ 31) :
    ∀ timer ∈ queue.timers, queue.count + 1 < timer.serial + 2 ^ 31 := by
  intro timer member
  obtain ⟨pos, within, isThis⟩ := implements.exists_pos member
  have young := fresh pos within
  have live := implements.live timer member
  rw [isThis, implements.order, live.age_element] at young
  have le := live.1
  omega

theorem Implements.step (implements : Implements heap queue) {call : TimerCall α}
    {next : TimerHeap α} (fresh : heap.Fresh call) (stepped : heap.step call = some next) :
    ∃ after, TimerQueue.Steps queue call after ∧ Implements next after := by
  obtain ⟨timers, count⟩ := queue
  cases call with
  | emplace isEmpty when value =>
      obtain rfl := Option.some.inj stepped
      obtain ⟨kept, dropped, rfl, empty, culled⟩ := implements.cullRandomly isEmpty heap.size
      have freshKept : ∀ timer ∈ kept, count + 1 < timer.serial + 2 ^ 31 :=
        fun timer member => implements.fresh fresh timer (Multiset.mem_add.mpr (Or.inl member))
      refine ⟨_, .emplace kept dropped count isEmpty when value empty, ?_⟩
      unfold TimerHeap.emplace
      dsimp only
      split
      · rename_i full
        obtain ⟨expanded, room⟩ := culled.expand full
        exact expanded.push room freshKept when value
      · rename_i notFull
        exact culled.push (lt_of_le_of_ne culled.capacity notFull) freshKept when value
  | pop =>
      simp only [TimerHeap.step] at stepped
      split at stepped
      · rename_i nonempty
        obtain rfl := Option.some.inj stepped
        obtain ⟨first, kept, rfl, isTop, after⟩ :=
          implements.hardCull (Nat.pos_of_ne_zero nonempty)
        have isFirst := implements.isFirst_iff (Multiset.mem_cons_self first kept) isTop
        refine ⟨_, .pop kept first count fun timer member => ?_, after⟩
        exact isFirst.2 timer (Multiset.mem_cons_of_mem member)
      · contradiction
  | cull isEmpty =>
      obtain rfl := Option.some.inj stepped
      obtain ⟨kept, dropped, rfl, empty, before, after, final⟩ :=
        implements.cullLoop isEmpty le_rfl
      exact ⟨_, .cull kept dropped count isEmpty empty before final, after⟩
  | clear =>
      obtain rfl := Option.some.inj stepped
      refine ⟨_, .clear timers count, ?_⟩
      exact
        { contents := rfl
          order := implements.order
          ordered := fun i _ within => absurd within (Nat.not_lt_zero i)
          capacity := Nat.zero_le _
          distinct := Multiset.nodup_zero
          live := fun timer member => absurd member (Multiset.notMem_zero timer) }

/-- The queue takes every run of the heap. -/
theorem Implements.run (implements : Implements heap queue) {calls : List (TimerCall α)}
    {last : TimerHeap α} (run : Transition.perform TimerHeap.step heap calls = some last)
    (fresh : Transition.Permitted TimerHeap.step TimerHeap.Fresh heap calls) :
    ∃ final, TimerQueue.Runs queue calls final ∧ Implements last final := by
  induction calls generalizing heap queue with
  | nil =>
      obtain rfl := Option.some.inj run
      exact ⟨queue, .done queue, implements⟩
  | cons call calls ih =>
      obtain ⟨middle, stepped, continued⟩ := Option.bind_eq_some_iff.mp run
      obtain ⟨after, steps, implements⟩ := implements.step fresh.1 stepped
      obtain ⟨final, runs, reached⟩ := ih implements continued (fresh.2 middle stepped)
      exact ⟨final, .next steps runs, reached⟩

theorem implements_construct (memory : Nat → Element α) :
    Implements (TimerHeap.construct memory) ⟨0, 0⟩ where
  contents := rfl
  order := rfl
  ordered := fun i _ within => absurd within (Nat.not_lt_zero i)
  capacity := Nat.le_refl 0
  distinct := Multiset.nodup_zero
  live := fun timer member => absurd member (Multiset.notMem_zero timer)

/-- A timer heap is a queue: after every run of calls it holds the timers that have
been set and neither popped nor dropped while they were empty, and the one at its
top is due first, at one time in the order in which they were set. -/
theorem timerHeap_refines {memory : Nat → Element α} {calls : List (TimerCall α)}
    (run : Transition.perform TimerHeap.step (TimerHeap.construct memory) calls = some heap)
    (fresh : Transition.Permitted TimerHeap.step TimerHeap.Fresh (TimerHeap.construct memory)
      calls) :
    ∃ queue, TimerQueue.Runs ⟨0, 0⟩ calls queue ∧
      HeapShape.contents heap.es heap.size = queue.timers.map Timer.element ∧
      heap.size ≤ heap.capacity ∧
      ∀ top, heap.top? = some top ↔ ∃ timer, queue.IsFirst timer ∧ timer.element = top := by
  suffices ∃ queue, TimerQueue.Runs ⟨0, 0⟩ calls queue ∧ Implements heap queue by
    obtain ⟨queue, runs, implements⟩ := this
    exact ⟨queue, runs, implements.contents, implements.capacity,
      fun top => implements.top?_eq_some_iff⟩
  exact (implements_construct memory).run run fresh

/-- Of two timers for one time the first one set comes out first. -/
theorem timerHeap_refines_sameTime :
    let calls : List (TimerCall String) :=
      [.emplace String.isEmpty 7 "first", .emplace String.isEmpty 7 "second",
        .emplace String.isEmpty 9 "", .pop]
    ∃ (heap : TimerHeap String) (queue : TimerQueue String), TimerQueue.Runs ⟨0, 0⟩ calls queue ∧
      HeapShape.contents heap.es heap.size = queue.timers.map Timer.element ∧
      heap.size = 2 ∧ ∃ timer, queue.IsFirst timer ∧ timer.element = ⟨7, 2, "second"⟩ := by
  intro calls
  have refines := @timerHeap_refines String _ (fun _ => ⟨0, 0, ""⟩) calls rfl (by decide)
  obtain ⟨queue, runs, contents, -, top⟩ := refines
  exact ⟨_, queue, runs, contents, rfl, (top _).mp rfl⟩

end DoomDraft.Cotamer
