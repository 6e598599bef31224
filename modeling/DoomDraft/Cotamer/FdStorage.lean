import Mathlib.Data.List.Perm.Subperm
import DoomDraft.Cotamer.FdLayout
import DoomDraft.Foundation.Transition

/-!
# The storage of an event set

An event set stores queues: its lists hold the watches of the queues, and its records and
the list of updates say the rest.  Each part of a call is followed on what is stored.
-/

namespace DoomDraft.Cotamer

open Links

universe u v

namespace FdEventSet

variable {β : Type u} {ε : Type v}

/-- The links between the descriptors that are to be reconciled. -/
def updateLinks (self : FdEventSet β ε) (link : Nat) : Nat := (self.fdr (link - 1)).updateLink

/-- The lists of an event set, by the cells of each, hold the watches of the queues. -/
structure Stores (set : FdEventSet β ε) (root : Nat) (contents : Home → List (Watch ε))
    (lists : Home → List Nat) : Prop where
  chains : Chains (links set.ws) linkClean (set.heads root) lists
  inRange : ∀ home, ∀ wix ∈ lists home, wix ≤ set.wsSize
  tail : ∀ ufd before last, lists (.fd ufd) = before ++ [last] → (set.fdr ufd).wtail = last
  hold : ∀ home, home ≠ .free →
    (lists home).map (fun wix => (set.ws wix).held) = (contents home).map some

/-- The records of the descriptors. -/
structure Records (set : FdEventSet β ε) (body : Nat → Option β) (epoch : Nat → BitVec 32)
    (pending : List Nat) : Prop where
  body : ∀ ufd, (set.fdr ufd).body = body ufd
  epoch : ∀ ufd, (set.fdr ufd).epoch = epoch ufd
  updates : Path set.updateLinks set.updateLink (pending.map (· + 1)) linkSentinel
  queued : ∀ ufd, (set.fdr ufd).updateLink = linkClean ↔ ufd ∉ pending
  distinct : pending.Nodup
  small : set.fdrCapacity ≤ 2 ^ 31

end FdEventSet

/-- The watches of the lists; the free list has none. -/
def Registry.contents (self : Registry β ε) : Home → List (Watch ε)
  | .fd ufd => (self.interest ufd).watches
  | .taken => self.taken
  | .free => []

namespace FdEventSet

/-- An event set spells queues. -/
structure Refines (set : FdEventSet β ε) (root : Nat) (registry : Registry β ε) : Prop where
  stores : ∃ lists, Stores set root registry.contents lists
  records : Records set (fun ufd => (registry.interest ufd).body)
    (fun ufd => (registry.interest ufd).epoch) registry.pending

/-! ## Descriptors -/

section Records

variable {self : FdEventSet β ε} {ufd : Nat}

/-- The record of a descriptor is replaced. -/
def setFdr (self : FdEventSet β ε) (ufd : Nat) (fdi : FdRec β) : FdEventSet β ε :=
  { self with fdrs := Function.update self.fdrs ufd fdi }

theorem fdr_setFdr (inside : ufd < self.fdrCapacity) (fdi : FdRec β) :
    (self.setFdr ufd fdi).fdr = Function.update self.fdr ufd fdi := by
  funext n
  by_cases same : n = ufd
  · subst same
    simp only [fdr, setFdr, inside, if_true, Function.update_self]
  · simp only [fdr, setFdr, ne_eq, same, not_false_eq_true, Function.update_of_ne]

/-- The records of the set are those of a descriptor in range. -/
theorem fdr_eq (inside : ufd < self.fdrCapacity) : self.fdrs ufd = self.fdr ufd :=
  (fdr_of_lt inside).symm

theorem newCapacity_gt (capacity ufd : Nat) : ufd < newCapacity capacity ufd := by
  unfold newCapacity
  split
  · rename_i large
    have positive : 0 < blockCapacity := by decide
    have whole := Nat.div_add_mod ufd blockCapacity
    have part := Nat.mod_lt ufd positive
    rw [Nat.add_one_mul, Nat.mul_comm]
    omega
  · have grows : ∀ fuel n, 1 ≤ n → ufd < n + fuel → ufd < doubleCapacity ufd fuel n := by
      intro fuel
      induction fuel with
      | zero => exact fun n _ bound => bound
      | succ fuel ih =>
          intro n positive bound
          rw [doubleCapacity]
          split
          · exact ih (n * 2) (by omega) (by omega)
          · rename_i behind
            exact Nat.not_le.mp behind
    apply grows
    · exact Nat.le_trans (by decide) (Nat.le_max_left firstCapacity _)
    · have first : 1 ≤ max firstCapacity (capacity * 2) :=
        Nat.le_trans (by decide) (Nat.le_max_left firstCapacity _)
      omega

theorem fdr_hardEnsure (outside : self.fdrCapacity ≤ ufd) :
    (self.hardEnsure ufd).fdr = self.fdr := by
  have grown := newCapacity_gt self.fdrCapacity ufd
  funext n
  change (if n < newCapacity self.fdrCapacity ufd then
      (if self.fdrCapacity ≤ n ∧ n < newCapacity self.fdrCapacity ufd then {} else self.fdrs n)
    else {}) = if n < self.fdrCapacity then self.fdrs n else {}
  by_cases old : n < self.fdrCapacity
  · have notNew : ¬(self.fdrCapacity ≤ n ∧ n < newCapacity self.fdrCapacity ufd) := by omega
    have inside : n < newCapacity self.fdrCapacity ufd := by omega
    rw [if_pos inside, if_neg notNew, if_pos old]
  · have low : self.fdrCapacity ≤ n := Nat.not_lt.mp old
    simp only [old, if_false, low, true_and]
    split <;> rfl

theorem newCapacity_le {capacity : Nat} (low : capacity ≤ ufd) (small : ufd < 2 ^ 31) :
    newCapacity capacity ufd ≤ 2 ^ 31 := by
  unfold newCapacity
  split
  · have part : ufd / blockCapacity < 2 ^ 21 := by
      rw [Nat.div_lt_iff_lt_mul (by decide)]
      exact small
    calc
      (ufd / blockCapacity + 1) * blockCapacity ≤ 2 ^ 21 * blockCapacity :=
        Nat.mul_le_mul_right _ part
      _ = 2 ^ 31 := by decide
  · rename_i few
    have bounded : ufd < 1024 := Nat.not_le.mp few
    have grows : ∀ fuel n, n ≤ 2 ^ 12 → doubleCapacity ufd fuel n ≤ 2 ^ 12 := by
      intro fuel
      induction fuel with
      | zero => exact fun n bound => bound
      | succ fuel ih =>
          intro n bound
          rw [doubleCapacity]
          split
          · exact ih (n * 2) (by omega)
          · exact bound
    have start : max firstCapacity (capacity * 2) ≤ 2 ^ 12 := by
      unfold firstCapacity
      omega
    exact Nat.le_trans (grows _ _ start) (by decide)

end Records

/-! ## What a call leaves alone -/

section Frames

variable {self left : FdEventSet β ε} {root : Nat}

theorem heads_congr (sameHead : ∀ ufd, (left.fdr ufd).whead = (self.fdr ufd).whead)
    (sameFree : left.freeWlink = self.freeWlink) : left.heads root = self.heads root := by
  funext home
  cases home with
  | fd ufd => exact sameHead ufd
  | taken => rfl
  | free => exact sameFree

theorem Stores.congr {contents : Home → List (Watch ε)} {lists : Home → List Nat}
    (stores : Stores self root contents lists) (sameWs : left.ws = self.ws)
    (sameSize : left.wsSize = self.wsSize) (sameFree : left.freeWlink = self.freeWlink)
    (sameHead : ∀ ufd, (left.fdr ufd).whead = (self.fdr ufd).whead)
    (sameTail : ∀ ufd, lists (.fd ufd) ≠ [] → (left.fdr ufd).wtail = (self.fdr ufd).wtail) :
    Stores left root contents lists := by
  constructor
  · rw [sameWs, heads_congr sameHead sameFree]
    exact stores.chains
  · rw [sameSize]
    exact stores.inRange
  · intro ufd before last shape
    rw [sameTail ufd (by simp [shape])]
    exact stores.tail ufd before last shape
  · rw [sameWs]
    exact stores.hold

/-- A record of a descriptor that keeps its queue is replaced. -/
theorem Stores.setRecord {contents : Home → List (Watch ε)} {lists : Home → List Nat} {ufd : Nat}
    {fdi : FdRec β} (stores : Stores self root contents lists)
    (changed : left.fdr = Function.update self.fdr ufd fdi)
    (sameWs : left.ws = self.ws) (sameSize : left.wsSize = self.wsSize)
    (sameFree : left.freeWlink = self.freeWlink) (sameHead : fdi.whead = (self.fdr ufd).whead)
    (sameTail : lists (.fd ufd) ≠ [] → fdi.wtail = (self.fdr ufd).wtail) :
    Stores left root contents lists := by
  apply stores.congr sameWs sameSize sameFree
  · intro n
    rw [changed]
    by_cases same : n = ufd
    · subst same
      rw [Function.update_self, sameHead]
    · rw [Function.update_of_ne same]
  · intro n occupied
    rw [changed]
    by_cases same : n = ufd
    · subst same
      rw [Function.update_self, sameTail occupied]
    · rw [Function.update_of_ne same]

theorem Records.congr {body : Nat → Option β} {epoch : Nat → BitVec 32} {pending : List Nat}
    (records : Records self body epoch pending)
    (same : ∀ ufd, (left.fdr ufd).body = (self.fdr ufd).body ∧
      (left.fdr ufd).epoch = (self.fdr ufd).epoch ∧
      (left.fdr ufd).updateLink = (self.fdr ufd).updateLink)
    (sameLink : left.updateLink = self.updateLink) (small : left.fdrCapacity ≤ 2 ^ 31) :
    Records left body epoch pending := by
  constructor
  · exact fun ufd => (same ufd).1.trans (records.body ufd)
  · exact fun ufd => (same ufd).2.1.trans (records.epoch ufd)
  · have alike : left.updateLinks = self.updateLinks := by
      funext link
      exact (same (link - 1)).2.2
    rw [alike, sameLink]
    exact records.updates
  · intro ufd
    rw [(same ufd).2.2]
    exact records.queued ufd
  · exact records.distinct
  · exact small

/-- A descriptor that is watched, owned or to be reconciled is in range. -/
theorem Records.lt_of_mem {body : Nat → Option β} {epoch : Nat → BitVec 32} {pending : List Nat}
    (records : Records self body epoch pending) {ufd : Nat} (member : ufd ∈ pending) :
    ufd < self.fdrCapacity := by
  by_contra outside
  have clean := (records.queued ufd).not_left.mpr member
  rw [fdr_of_le (Nat.not_lt.mp outside)] at clean
  exact clean rfl

end Frames

/-! ## The list of updates -/

section Updates

variable {self : FdEventSet β ε} {root ufd : Nat} {body : Nat → Option β}
  {epoch : Nat → BitVec 32} {pending : List Nat}

@[simp]
theorem queueUpdate_ws : (self.queueUpdate ufd).ws = self.ws := by
  simp only [queueUpdate]
  split <;> rfl

@[simp]
theorem queueUpdate_wsSize : (self.queueUpdate ufd).wsSize = self.wsSize := by
  simp only [queueUpdate]
  split <;> rfl

@[simp]
theorem queueUpdate_freeWlink : (self.queueUpdate ufd).freeWlink = self.freeWlink := by
  simp only [queueUpdate]
  split <;> rfl

@[simp]
theorem queueUpdate_fdrCapacity : (self.queueUpdate ufd).fdrCapacity = self.fdrCapacity := by
  simp only [queueUpdate]
  split <;> rfl

/-- The record of the descriptor changes in its link only. -/
theorem fdr_queueUpdate (inside : ufd < self.fdrCapacity) :
    (self.queueUpdate ufd).fdr = Function.update self.fdr ufd { self.fdr ufd with
      updateLink := if (self.fdr ufd).updateLink = linkClean then self.updateLink
        else (self.fdr ufd).updateLink } := by
  unfold queueUpdate
  simp only [fdr_eq inside]
  split
  · exact fdr_setFdr inside _
  · exact (Function.update_eq_self ufd self.fdr).symm

theorem queueUpdate_fields (inside : ufd < self.fdrCapacity) (n : Nat) :
    ((self.queueUpdate ufd).fdr n).whead = (self.fdr n).whead ∧
      ((self.queueUpdate ufd).fdr n).wtail = (self.fdr n).wtail ∧
      ((self.queueUpdate ufd).fdr n).body = (self.fdr n).body ∧
      ((self.queueUpdate ufd).fdr n).epoch = (self.fdr n).epoch := by
  rw [fdr_queueUpdate inside]
  by_cases same : n = ufd
  · subst same
    simp only [Function.update_self, and_self]
  · simp only [Function.update_of_ne same, and_self]

theorem Stores.queueUpdate {contents : Home → List (Watch ε)} {lists : Home → List Nat}
    (stores : Stores self root contents lists) (inside : ufd < self.fdrCapacity) :
    Stores (self.queueUpdate ufd) root contents lists :=
  stores.congr queueUpdate_ws queueUpdate_wsSize queueUpdate_freeWlink
    (fun n => (queueUpdate_fields inside n).1) (fun n _ => (queueUpdate_fields inside n).2.1)

/-- The links between the waiting descriptors do not depend on other records. -/
theorem updateLinks_path {left : FdEventSet β ε} {fdi : FdRec β} {a b : Nat} {segment : List Nat}
    (path : Path self.updateLinks a (segment.map (· + 1)) b)
    (changed : left.fdr = Function.update self.fdr ufd fdi) (away : ufd ∉ segment) :
    Path left.updateLinks a (segment.map (· + 1)) b := by
  apply path.congr
  intro link member
  obtain ⟨n, inside, rfl⟩ := List.mem_map.mp member
  have other : n + 1 - 1 ≠ ufd := by
    rintro rfl
    exact away inside
  simp only [updateLinks, changed, Function.update_of_ne other]

theorem Records.updateLink_ne (records : Records self body epoch pending) :
    self.updateLink ≠ linkClean := by
  have begins := records.updates.head_eq
  cases pending with
  | nil =>
      rw [begins]
      decide
  | cons n rest =>
      rw [begins]
      exact Nat.succ_ne_zero n

theorem Records.queueUpdate (records : Records self body epoch pending)
    (inside : ufd < self.fdrCapacity) :
    Records (self.queueUpdate ufd) body epoch
      (if ufd ∈ pending then pending else ufd :: pending) := by
  have fields := queueUpdate_fields inside
  by_cases member : ufd ∈ pending
  · have linked := (records.queued ufd).not_left.mpr member
    have same : self.queueUpdate ufd = self := by
      unfold FdEventSet.queueUpdate
      rw [fdr_eq inside]
      exact if_neg linked
    rw [if_pos member, same]
    exact records
  · have clean := (records.queued ufd).mpr member
    have changed := fdr_queueUpdate inside
    rw [if_pos clean] at changed
    have moved : (self.queueUpdate ufd).updateLink = ufd + 1 := by
      unfold FdEventSet.queueUpdate
      rw [fdr_eq inside]
      simp only [clean, if_true]
    rw [if_neg member]
    constructor
    · exact fun n => (fields n).2.2.1.trans (records.body n)
    · exact fun n => (fields n).2.2.2.trans (records.epoch n)
    · refine ⟨moved, ?_⟩
      have behind : (self.queueUpdate ufd).updateLinks (ufd + 1) = self.updateLink := by
        simp only [updateLinks, changed, Nat.add_sub_cancel, Function.update_self]
      rw [behind]
      exact updateLinks_path records.updates changed member
    · intro n
      rw [changed]
      by_cases same : n = ufd
      · subst same
        simp [records.updateLink_ne]
      · rw [Function.update_of_ne same, records.queued n]
        simp [same]
    · exact List.nodup_cons.mpr ⟨member, records.distinct⟩
    · rw [queueUpdate_fdrCapacity]
      exact records.small

/-- The first waiting descriptor leaves the list, with another epoch. -/
theorem Records.popUpdate {rest : List Nat} (records : Records self body epoch (ufd :: rest))
    (epoch' : BitVec 32) (left : FdEventSet β ε)
    (changed : left.fdr = Function.update self.fdr ufd
      { self.fdr ufd with updateLink := linkClean, epoch := epoch' })
    (link : left.updateLink = (self.fdr ufd).updateLink)
    (sameCapacity : left.fdrCapacity = self.fdrCapacity) :
    Records left body (Function.update epoch ufd epoch') rest := by
  have fresh := List.nodup_cons.mp records.distinct
  constructor
  · intro n
    rw [changed]
    by_cases same : n = ufd
    · subst same
      simp only [Function.update_self]
      exact records.body n
    · rw [Function.update_of_ne same]
      exact records.body n
  · intro n
    rw [changed]
    by_cases same : n = ufd
    · subst same
      simp only [Function.update_self]
    · rw [Function.update_of_ne same, Function.update_of_ne same]
      exact records.epoch n
  · rw [link]
    exact updateLinks_path records.updates.2 changed fresh.1
  · intro n
    rw [changed]
    by_cases same : n = ufd
    · subst same
      simp [fresh.1]
    · rw [Function.update_of_ne same, records.queued n]
      simp [same]
  · exact fresh.2
  · rw [sameCapacity]
    exact records.small

/-- A descriptor changes hands. -/
theorem Records.setOwner (records : Records self body epoch pending) {fdi : FdRec β}
    (left : FdEventSet β ε) (changed : left.fdr = Function.update self.fdr ufd fdi)
    (sameLink : left.updateLink = self.updateLink)
    (sameQueued : fdi.updateLink = (self.fdr ufd).updateLink)
    (sameCapacity : left.fdrCapacity = self.fdrCapacity) :
    Records left (Function.update body ufd fdi.body) (Function.update epoch ufd fdi.epoch)
      pending := by
  have links : ∀ n, (left.fdr n).updateLink = (self.fdr n).updateLink := by
    intro n
    rw [changed]
    by_cases same : n = ufd
    · subst same
      rw [Function.update_self, sameQueued]
    · rw [Function.update_of_ne same]
  constructor
  · intro n
    rw [changed]
    by_cases same : n = ufd
    · subst same
      simp only [Function.update_self]
    · rw [Function.update_of_ne same, Function.update_of_ne same]
      exact records.body n
  · intro n
    rw [changed]
    by_cases same : n = ufd
    · subst same
      simp only [Function.update_self]
    · rw [Function.update_of_ne same, Function.update_of_ne same]
      exact records.epoch n
  · have alike : left.updateLinks = self.updateLinks := by
      funext link
      exact links (link - 1)
    rw [alike, sameLink]
    exact records.updates
  · intro n
    rw [links]
    exact records.queued n
  · exact records.distinct
  · rw [sameCapacity]
    exact records.small

end Updates

/-! ## Watches that come and go -/

section Watches

variable {self left : FdEventSet β ε} {root root' : Nat} {contents : Home → List (Watch ε)}
  {lists : Home → List Nat}

/-- The loops of the set have as much fuel as there are records. -/
theorem Stores.length_le (stores : Stores self root contents lists) (home : Home) :
    (lists home).length ≤ self.wsSize := by
  have within : lists home ⊆ List.range' 1 self.wsSize := by
    intro wix member
    have positive : wix ≠ linkClean := by
      rintro rfl
      exact stores.chains.proper home member
    have bound := stores.inRange home wix member
    unfold linkClean at positive
    rw [List.mem_range'_1]
    omega
  have few := (List.subperm_of_subset (stores.chains.nodup home) within).length_le
  rwa [List.length_range'] at few

theorem Stores.wanted (stores : Stores self root contents lists) (isEmpty : ε → Bool)
    (home : Home) (occupied : home ≠ .free) :
    self.watchListMask isEmpty (self.heads root home) =
      some (Cotamer.wanted isEmpty (contents home)) :=
  maskLoop_eq isEmpty (stores.chains.path home) (stores.chains.proper home)
    (stores.length_le home) (stores.hold home occupied) 0

/-- The first cell of a list is released. -/
theorem Stores.release (stores : Stores self root contents lists) (left : FdEventSet β ε)
    {root' : Nat} {home : Home}
    (occupied : home ≠ .free) {x : Nat} {rest : List Nat} (shape : lists home = x :: rest)
    (sameWs : left.ws = (self.release x).ws) (sameSize : left.wsSize = self.wsSize)
    (heads : left.heads root' =
      Function.update (Function.update (self.heads root) home (links self.ws x)) .free x)
    (sameTail : ∀ ufd, (left.fdr ufd).wtail = (self.fdr ufd).wtail) :
    ∃ watch watches, contents home = watch :: watches ∧ (self.ws x).held = some watch ∧
      Stores left root' (Function.update contents home watches)
        (Function.update (Function.update lists home rest) .free (x :: lists .free)) := by
  have hold := stores.hold home occupied
  rw [shape] at hold
  cases queue : contents home with
  | nil =>
      rw [queue] at hold
      cases hold
  | cons watch watches =>
      rw [queue, List.map_cons, List.map_cons, List.cons.injEq] at hold
      refine ⟨watch, watches, rfl, hold.1, ?_⟩
      have member : x ∈ lists home := shape ▸ List.mem_cons_self
      have proper : x ≠ linkClean := by
        rintro rfl
        exact stores.chains.proper home member
      have away := stores.chains.dropFirst_notMem shape
      have pushed := (stores.chains.dropFirst shape).pushFirst .free away proper
      have freeHead : Function.update (self.heads root) home (links self.ws x) .free =
          self.freeWlink := Function.update_of_ne occupied.symm _ _
      have freeList : Function.update lists home rest .free = lists .free :=
        Function.update_of_ne occupied.symm _ _
      rw [freeHead, freeList, ← heads] at pushed
      have sub : ∀ other, other ≠ .free → ∀ y ∈ Function.update (Function.update lists home rest)
          .free (x :: lists .free) other, y ∈ lists other ∧ y ≠ x := by
        intro other notFree y inside
        rw [Function.update_of_ne notFree] at inside
        refine ⟨?_, fun same => away other (same ▸ inside)⟩
        by_cases same : other = home
        · subst same
          rw [Function.update_self] at inside
          exact shape ▸ List.mem_cons_of_mem _ inside
        · rwa [Function.update_of_ne same] at inside
      constructor
      · rw [sameWs]
        exact (links_update self.ws x _).symm ▸ pushed
      · intro other wix inside
        rw [sameSize]
        by_cases isFree : other = .free
        · subst isFree
          rw [Function.update_self] at inside
          rcases List.mem_cons.mp inside with rfl | inside
          · exact stores.inRange home wix member
          · exact stores.inRange .free wix inside
        · exact stores.inRange other wix (sub other isFree wix inside).1
      · intro ufd before last here
        rw [sameTail]
        rw [Function.update_of_ne (by simp)] at here
        by_cases same : Home.fd ufd = home
        · subst same
          rw [Function.update_self] at here
          apply stores.tail ufd (x :: before)
          rw [shape, here, List.cons_append]
        · rw [Function.update_of_ne same] at here
          exact stores.tail ufd before last here
      · intro other notFree
        have unread : ∀ y ∈ Function.update (Function.update lists home rest) .free
            (x :: lists .free) other, (left.ws y).held = (self.ws y).held := by
          intro y inside
          have different := (sub other notFree y inside).2
          rw [sameWs]
          exact congrArg WatchRec.held (Function.update_of_ne different _ _)
        rw [List.map_congr_left unread, Function.update_of_ne notFree]
        by_cases same : other = home
        · subst same
          rw [Function.update_self, Function.update_self]
          exact hold.2
        · rw [Function.update_of_ne same, Function.update_of_ne same]
          exact stores.hold other notFree

theorem heads_setFdr (root : Nat) {ufd : Nat} (inside : ufd < self.fdrCapacity) (fdi : FdRec β) :
    (self.setFdr ufd fdi).heads root =
      Function.update (self.heads root) (.fd ufd) fdi.whead := by
  funext home
  cases home with
  | fd n =>
      simp only [heads, fdr_setFdr inside]
      by_cases same : n = ufd
      · subst same
        simp only [Function.update_self]
      · simp only [ne_eq, Home.fd.injEq, same, not_false_eq_true, Function.update_of_ne, heads]
  | taken => rfl
  | free => rfl

/-- What becomes of the records when one is linked. -/
theorem linkRecord_held {ufd wix : Nat} (ev : ε) (y : Nat) :
    ((self.linkRecord ufd wix ev).ws y).held =
      if y = wix then some ⟨ev, (self.ws wix).mask⟩ else (self.ws y).held := by
  by_cases same : y = wix
  · subst same
    unfold FdEventSet.linkRecord
    dsimp only
    split
    · by_cases last : y = (self.fdrs ufd).wtail
      · subst last
        simp [WatchRec.held, writeLink]
      · simp [WatchRec.held, writeLink, last]
    · simp [WatchRec.held]
  · unfold FdEventSet.linkRecord
    dsimp only
    split
    · rw [Function.update_of_ne same]
      exact writeLink_held _ _ _ _
    · rw [Function.update_of_ne same]

theorem exists_linkRecord_fdr {ufd wix : Nat} (inside : ufd < self.fdrCapacity) (ev : ε) :
    ∃ fdi : FdRec β, fdi.wtail = wix ∧ fdi.body = (self.fdr ufd).body ∧
      fdi.epoch = (self.fdr ufd).epoch ∧ fdi.updateLink = (self.fdr ufd).updateLink ∧
      (self.linkRecord ufd wix ev).fdr = Function.update self.fdr ufd fdi := by
  rw [fdr_of_lt inside]
  unfold FdEventSet.linkRecord
  dsimp only
  split
  · exact ⟨{ self.fdrs ufd with wtail := wix }, rfl, rfl, rfl, rfl, fdr_setFdr inside _⟩
  · exact ⟨{ self.fdrs ufd with whead := wix, wtail := wix }, rfl, rfl, rfl, rfl,
      fdr_setFdr inside _⟩

theorem linkRecord_wtail {ufd wix : Nat} (inside : ufd < self.fdrCapacity) (ev : ε) (n : Nat) :
    ((self.linkRecord ufd wix ev).fdr n).wtail = if n = ufd then wix else (self.fdr n).wtail := by
  obtain ⟨fdi, last, -, -, -, changed⟩ := exists_linkRecord_fdr inside ev
  rw [changed]
  by_cases here : n = ufd
  · subst here
    rw [Function.update_self, if_pos rfl, last]
  · rw [Function.update_of_ne here, if_neg here]

/-- Linking a record leaves who owns a descriptor, its epoch and the updates as they are. -/
theorem linkRecord_fields {ufd wix : Nat} (inside : ufd < self.fdrCapacity) (ev : ε) (n : Nat) :
    ((self.linkRecord ufd wix ev).fdr n).body = (self.fdr n).body ∧
      ((self.linkRecord ufd wix ev).fdr n).epoch = (self.fdr n).epoch ∧
      ((self.linkRecord ufd wix ev).fdr n).updateLink = (self.fdr n).updateLink := by
  obtain ⟨fdi, -, body, epoch, queued, changed⟩ := exists_linkRecord_fdr inside ev
  rw [changed]
  by_cases here : n = ufd
  · subst here
    rw [Function.update_self]
    exact ⟨body, epoch, queued⟩
  · rw [Function.update_of_ne here]
    exact ⟨rfl, rfl, rfl⟩

/-- A record that is on no list is put behind the others of a descriptor. -/
theorem Stores.linkRecord (stores : Stores self root contents lists) {ufd wix : Nat}
    (inside : ufd < self.fdrCapacity) (away : ∀ home, wix ∉ lists home)
    (proper : wix ≠ linkClean) (bound : wix ≤ self.wsSize) (clean : links self.ws wix = linkClean)
    (ev : ε) :
    Stores (self.linkRecord ufd wix ev) root
      (Function.update contents (.fd ufd)
        (contents (.fd ufd) ++ [⟨ev, (self.ws wix).mask⟩]))
      (Function.update lists (.fd ufd) (lists (.fd ufd) ++ [wix])) := by
  have headed : (self.fdr ufd).whead = linkClean ↔ lists (.fd ufd) = [] :=
    stores.chains.head_eq_stop_iff (.fd ufd)
  rw [fdr_of_lt inside] at headed
  constructor
  · rcases List.eq_nil_or_concat' (lists (.fd ufd)) with empty | ⟨before, last, shape⟩
    · have linked : self.linkRecord ufd wix ev = { self.setFdr ufd { self.fdrs ufd with
          whead := wix, wtail := wix } with
          ws := Function.update self.ws wix { self.ws wix with ev := some ev } } := by
        unfold FdEventSet.linkRecord
        simp only [headed.mpr empty, ne_eq, not_true_eq_false, if_false]
        rfl
      have pushed := stores.chains.pushOnly empty away proper
      rw [← clean, Function.update_eq_self, clean] at pushed
      have sameLinks : links (self.linkRecord ufd wix ev).ws = links self.ws := by
        rw [linked, links_update]
        exact Function.update_eq_self wix (links self.ws)
      have sameHeads : (self.linkRecord ufd wix ev).heads root =
          Function.update (self.heads root) (.fd ufd) wix := by
        rw [linked]
        exact heads_setFdr root inside _
      rw [sameLinks, sameHeads, empty]
      exact pushed
    · have occupied : (self.fdrs ufd).whead ≠ linkClean := by
        rw [Ne, headed, shape]
        simp
      have atLast : (self.fdrs ufd).wtail = last := by
        rw [← fdr_of_lt inside]
        exact stores.tail ufd before last shape
      have linked : self.linkRecord ufd wix ev = { self.setFdr ufd { self.fdrs ufd with
          wtail := wix } with
          ws := Function.update (writeLink self.ws last wix) wix
            { writeLink self.ws last wix wix with ev := some ev } } := by
        unfold FdEventSet.linkRecord
        simp only [occupied, ne_eq, not_false_eq_true, if_true, atLast]
        rfl
      have pushed := stores.chains.pushLast shape away proper
      have other : wix ≠ last := by
        rintro rfl
        exact away (.fd ufd) (by simp [shape])
      have sameLinks : links (self.linkRecord ufd wix ev).ws =
          Function.update (Function.update (links self.ws) wix linkClean) last wix := by
        rw [linked, links_update, links_writeLink, Function.update_comm other]
        simp only [writeLink_of_ne other]
        rw [show (self.ws wix).wlink = linkClean from clean]
      have sameHeads : (self.linkRecord ufd wix ev).heads root = self.heads root := by
        rw [linked]
        refine (heads_setFdr root inside _).trans ?_
        simp only [← fdr_of_lt inside]
        exact Function.update_eq_self (Home.fd ufd) (self.heads root)
      rw [sameLinks, sameHeads]
      exact pushed
  · have sameSize : (self.linkRecord ufd wix ev).wsSize = self.wsSize := by
      unfold FdEventSet.linkRecord
      dsimp only
      split <;> rfl
    rw [sameSize]
    intro home y member
    by_cases same : home = .fd ufd
    · subst same
      rw [Function.update_self] at member
      rcases List.mem_append.mp member with member | here
      · exact stores.inRange _ y member
      · rwa [List.mem_singleton.mp here]
    · rw [Function.update_of_ne same] at member
      exact stores.inRange home y member
  · intro n before last shape
    rw [linkRecord_wtail inside]
    by_cases same : n = ufd
    · subst same
      rw [Function.update_self] at shape
      rw [if_pos rfl]
      exact (List.cons.inj (List.append_inj' shape rfl).2).1
    · rw [Function.update_of_ne (by simpa using same)] at shape
      rw [if_neg same]
      exact stores.tail n before last shape
  · intro home occupied
    have unread : ∀ y ∈ lists home,
        ((self.linkRecord ufd wix ev).ws y).held = (self.ws y).held := by
      intro y member
      have other : y ≠ wix := by
        rintro rfl
        exact away home member
      rw [linkRecord_held, if_neg other]
    by_cases same : home = .fd ufd
    · subst same
      rw [Function.update_self, Function.update_self, List.map_append, List.map_append,
        List.map_congr_left unread, stores.hold _ occupied]
      simp [linkRecord_held]
    · rw [Function.update_of_ne same, Function.update_of_ne same, List.map_congr_left unread]
      exact stores.hold home occupied

/-- The record for a new watch is on no list. -/
theorem Stores.newRecord (stores : Stores self root contents lists) (imask : FdEvent) :
    ∃ lists', Stores (self.newRecord imask).1 root contents lists' ∧
      (∀ home, (self.newRecord imask).2 ∉ lists' home) ∧
      (self.newRecord imask).2 ≠ linkClean ∧
      (self.newRecord imask).2 ≤ (self.newRecord imask).1.wsSize ∧
      links (self.newRecord imask).1.ws (self.newRecord imask).2 = linkClean ∧
      ((self.newRecord imask).1.ws (self.newRecord imask).2).mask = imask := by
  by_cases any : self.freeWlink = linkClean
  · have made : self.newRecord imask = ({ self with
        ws := Function.update self.ws (self.wsSize + 1) ⟨none, imask, linkClean⟩
        wsSize := self.wsSize + 1 }, self.wsSize + 1) := by
      unfold FdEventSet.newRecord
      simp only [any, ne_eq, not_true_eq_false, if_false]
    rw [made]
    have away : ∀ home, self.wsSize + 1 ∉ lists home := by
      intro home member
      have bound := stores.inRange home _ member
      omega
    have unread : ∀ home, ∀ y ∈ lists home,
        Function.update self.ws (self.wsSize + 1) ⟨none, imask, linkClean⟩ y = self.ws y := by
      intro home y member
      have other : y ≠ self.wsSize + 1 := by
        rintro rfl
        exact away home member
      exact Function.update_of_ne other _ _
    refine ⟨lists, ⟨⟨fun home => ?_, stores.chains.nodup, stores.chains.disjoint,
      stores.chains.proper⟩, fun home y member => ?_, stores.tail, fun home occupied => ?_⟩,
      away, Nat.succ_ne_zero _, le_rfl, ?_, ?_⟩
    · apply (stores.chains.path home).congr
      exact fun y member => congrArg WatchRec.wlink (unread home y member)
    · exact Nat.le_succ_of_le (stores.inRange home y member)
    · rw [← stores.hold home occupied]
      exact List.map_congr_left fun y member => congrArg WatchRec.held (unread home y member)
    · simp [links]
    · simp
  · have made : self.newRecord imask = ({ self with
        freeWlink := (self.ws self.freeWlink).wlink
        ws := Function.update self.ws self.freeWlink
          { self.ws self.freeWlink with mask := imask, wlink := linkClean } },
        self.freeWlink) := by
      unfold FdEventSet.newRecord
      simp only [any, ne_eq, not_false_eq_true, if_true]
    rw [made]
    have begins : self.freeWlink = (lists .free).headD linkClean := stores.chains.head_eq .free
    obtain ⟨rest, shape⟩ : ∃ rest, lists .free = self.freeWlink :: rest := by
      cases free : lists .free with
      | nil =>
          rw [free] at begins
          exact absurd begins any
      | cons x rest =>
          rw [free] at begins
          exact ⟨rest, by rw [begins]; rfl⟩
    have away := stores.chains.dropFirst_notMem shape
    have dropped := stores.chains.dropFirst shape
    have member : self.freeWlink ∈ lists .free := shape ▸ List.mem_cons_self
    have sub : ∀ home, Function.update lists .free rest home ⊆ lists home := by
      intro home
      by_cases same : home = .free
      · subst same
        rw [Function.update_self, shape]
        exact List.subset_cons_self _ _
      · rw [Function.update_of_ne same]
        exact List.Subset.refl _
    have unread : ∀ home, ∀ y ∈ Function.update lists .free rest home,
        Function.update self.ws self.freeWlink
          { self.ws self.freeWlink with mask := imask, wlink := linkClean } y = self.ws y := by
      intro home y inside
      have other : y ≠ self.freeWlink := by
        rintro rfl
        exact away home inside
      exact Function.update_of_ne other _ _
    refine ⟨Function.update lists .free rest, ⟨⟨fun home => ?_, dropped.nodup, dropped.disjoint,
      dropped.proper⟩, fun home y inside => stores.inRange home y (sub home inside),
      fun ufd before last here => ?_, fun home occupied => ?_⟩, away, any,
      stores.inRange .free _ member, ?_, ?_⟩
    · have sameHead : FdEventSet.heads { self with
          freeWlink := (self.ws self.freeWlink).wlink
          ws := Function.update self.ws self.freeWlink
            { self.ws self.freeWlink with mask := imask, wlink := linkClean } } root home =
          Function.update (self.heads root) .free (links self.ws self.freeWlink) home := by
        by_cases same : home = .free
        · subst same
          rw [Function.update_self]
          rfl
        · rw [Function.update_of_ne same]
          cases home with
          | fd n => rfl
          | taken => rfl
          | free => exact absurd rfl same
      rw [sameHead]
      apply (dropped.path home).congr
      exact fun y inside => congrArg WatchRec.wlink (unread home y inside)
    · rw [Function.update_of_ne (by simp)] at here
      exact stores.tail ufd before last here
    · have held := stores.hold home occupied
      rw [← held, Function.update_of_ne occupied]
      have kept := unread home
      rw [Function.update_of_ne occupied] at kept
      exact List.map_congr_left fun y inside => congrArg WatchRec.held (kept y inside)
    · simp [links]
    · simp

/-- The loop of `fd_close` empties the queue of the descriptor in its order. -/
theorem Stores.exists_closeLoop (stores : Stores self root contents lists) {ufd fuel : Nat}
    (inside : ufd < self.fdrCapacity) (enough : (lists (.fd ufd)).length ≤ fuel) :
    ∃ left lists', closeLoop ufd fuel self =
        some (left, (contents (.fd ufd)).map Watch.event) ∧
      Stores left root (Function.update contents (.fd ufd) []) lists' ∧
      left.updateLink = self.updateLink ∧ left.fdrCapacity = self.fdrCapacity ∧
      ∀ n, (left.fdr n).body = (self.fdr n).body ∧ (left.fdr n).epoch = (self.fdr n).epoch ∧
        (left.fdr n).updateLink = (self.fdr n).updateLink := by
  have headed := stores.chains.head_eq (.fd ufd)
  have head : (self.fdrs ufd).whead = (lists (.fd ufd)).headD linkClean := by
    rw [← fdr_of_lt inside]
    exact headed
  have hold := stores.hold (.fd ufd) (by simp)
  induction queue : lists (.fd ufd) generalizing self contents lists fuel with
  | nil =>
      rw [queue] at head hold
      have empty : contents (.fd ufd) = [] := by
        cases watches : contents (.fd ufd) with
        | nil => rfl
        | cons _ _ =>
            rw [watches] at hold
            cases hold
      refine ⟨self, lists, ?_, ?_, rfl, rfl, fun n => ⟨rfl, rfl, rfl⟩⟩
      · unfold closeLoop
        rw [empty]
        exact if_pos head
      · rw [← empty, Function.update_eq_self]
        exact stores
  | cons x rest ih =>
      rw [queue, List.headD_cons] at head
      have proper : x ≠ linkClean := by
        rintro rfl
        exact stores.chains.proper (.fd ufd) (queue ▸ List.mem_cons_self)
      cases fuel with
      | zero =>
          rw [queue] at enough
          simp at enough
      | succ fuel =>
          let fdi : FdRec β := { self.fdrs ufd with whead := (self.ws x).wlink }
          let next : FdEventSet β ε :=
            { self.release x with fdrs := Function.update self.fdrs ufd fdi }
          have fields : next.fdr = Function.update self.fdr ufd fdi := fdr_setFdr inside fdi
          have same : ∀ n, (next.fdr n).wtail = (self.fdr n).wtail ∧
              (next.fdr n).body = (self.fdr n).body ∧ (next.fdr n).epoch = (self.fdr n).epoch ∧
              (next.fdr n).updateLink = (self.fdr n).updateLink := by
            intro n
            rw [fields]
            by_cases here : n = ufd
            · subst here
              rw [Function.update_self, fdr_of_lt inside]
              exact ⟨rfl, rfl, rfl, rfl⟩
            · rw [Function.update_of_ne here]
              exact ⟨rfl, rfl, rfl, rfl⟩
          have heads : next.heads root = Function.update
              (Function.update (self.heads root) (.fd ufd) (links self.ws x)) .free x := by
            funext home
            cases home with
            | fd n =>
                rw [Function.update_of_ne (by simp)]
                exact congrFun (heads_setFdr root inside fdi) (.fd n)
            | taken => rfl
            | free => rw [Function.update_self]; rfl
          obtain ⟨watch, watches, shape, held, stored⟩ := stores.release next (by simp)
            queue rfl rfl heads fun n => (same n).1
          obtain ⟨event, has, made⟩ := Option.map_eq_some_iff.mp held
          have emptied : Function.update (Function.update lists (.fd ufd) rest) .free
              (x :: lists .free) (.fd ufd) = rest := by
            rw [Function.update_of_ne (by simp), Function.update_self]
          have less : (Function.update (Function.update lists (.fd ufd) rest) .free
              (x :: lists .free) (.fd ufd)).length ≤ fuel := by
            rw [queue, List.length_cons] at enough
            rw [emptied]
            omega
          have headed' := stored.chains.head_eq (.fd ufd)
          have head' : (next.fdrs ufd).whead = (Function.update (Function.update lists (.fd ufd)
              rest) .free (x :: lists .free) (.fd ufd)).headD linkClean := by
            have here : next.fdr ufd = next.fdrs ufd := fdr_of_lt inside
            rw [← here]
            exact headed'
          obtain ⟨left, lists', run, final, link, capacity, frame⟩ := ih stored
            inside less headed' head' (stored.hold (.fd ufd) (by simp)) emptied
          refine ⟨left, lists', ?_, ?_, link, capacity, fun n => ?_⟩
          · unfold closeLoop
            simp only [head, proper, if_false]
            rw [Function.update_self] at run
            change (closeLoop ufd fuel next).map _ = _
            rw [run, shape, has, ← made]
            rfl
          · rwa [Function.update_idem] at final
          · obtain ⟨body, epoch, queued⟩ := frame n
            exact ⟨body.trans (same n).2.1, epoch.trans (same n).2.2.1,
              queued.trans (same n).2.2.2⟩

/-- What a notification takes is taken, and the rest of the queue is kept. -/
theorem Stores.exists_takeLoop (stores : Stores self linkClean contents lists)
    (drained : contents .taken = []) (isEmpty : ε → Bool) (imask : FdEvent) {ufd : Nat}
    (inside : ufd < self.fdrCapacity) :
    ∃ ended lists', takeLoop isEmpty imask self.wsSize (self.fdrs ufd).whead
        ⟨linkClean, (self.fdrs ufd).whead, linkClean, self.ws, .taken, .kept⟩ = some ended ∧
      ∀ last, last = (ended.store ended.fdpprev linkClean).store ended.wpprev linkClean →
      Stores { self.setFdr ufd { self.fdrs ufd with
          whead := last.fdWhead, wtail := last.wtail } with ws := last.ws } last.whead
        (Function.update (Function.update contents (.fd ufd)
          ((contents (.fd ufd)).filter fun watch => !watch.concerned isEmpty imask)) .taken
          ((contents (.fd ufd)).filter (Watch.concerned isEmpty imask))) lists' ∧
      (last.whead = linkClean ↔
        (contents (.fd ufd)).filter (Watch.concerned isEmpty imask) = []) := by
  have empty : lists .taken = [] := by
    have hold := stores.hold .taken (by simp)
    rw [drained, List.map_nil, List.map_eq_nil_iff] at hold
    exact hold
  have path := stores.chains.path (.fd ufd)
  have begins : self.heads linkClean (.fd ufd) = (self.fdrs ufd).whead :=
    congrArg FdRec.whead (fdr_of_lt inside)
  rw [begins] at path
  have distinct := stores.chains.nodup (.fd ufd)
  obtain ⟨ended, run, progress⟩ := FdEventSet.exists_takeLoop isEmpty imask
    (progress_start self.ws (self.fdrs ufd).whead) path (stores.chains.proper (.fd ufd))
    (by simpa using distinct) (stores.length_le (.fd ufd))
  simp only [List.nil_append] at progress
  have hold := stores.hold (.fd ufd) (by simp)
  have holdTaken := held_filter isEmpty imask hold false
  have holdKept := held_filter isEmpty imask hold true
  simp only [Bool.bne_false, Bool.bne_true] at holdTaken holdKept
  generalize takenShape : (lists (.fd ufd)).filter (fun x => picks isEmpty imask (self.ws x)) =
    taken at progress holdTaken
  generalize keptShape : (lists (.fd ufd)).filter (fun x => !picks isEmpty imask (self.ws x)) =
    kept at progress holdKept
  have takenIn : ∀ x ∈ taken, x ∈ lists (.fd ufd) := fun x member =>
    List.mem_of_mem_filter (takenShape ▸ member)
  have keptIn : ∀ x ∈ kept, x ∈ lists (.fd ufd) := fun x member =>
    List.mem_of_mem_filter (keptShape ▸ member)
  have apart : ∀ x ∈ taken, x ∉ kept := by
    intro x inTaken inKept
    rw [← takenShape, List.mem_filter] at inTaken
    rw [← keptShape, List.mem_filter] at inKept
    simp [inTaken.2] at inKept
  refine ⟨ended, Function.update (Function.update lists (.fd ufd) kept) .taken taken, run,
    fun last isLast => ?_⟩
  obtain ⟨takenPath, keptPath, held, frame, tail⟩ := progress.finish apart isLast
  let left : FdEventSet β ε := { self.setFdr ufd { self.fdrs ufd with
    whead := last.fdWhead, wtail := last.wtail } with ws := last.ws }
  have notTaken : Home.fd ufd ≠ .taken := by simp
  -- no cell of another list has been written
  have unread : ∀ home ≠ .fd ufd, ∀ x ∈ lists home, last.ws x = self.ws x := by
    intro home other x member
    have away : x ∉ lists (.fd ufd) := fun there =>
      other (stores.chains.disjoint home (.fd ufd) x member there)
    exact frame x (fun there => away (takenIn x there)) (fun there => away (keptIn x there))
  have heads : left.heads last.whead = Function.update
      (Function.update (self.heads linkClean) (.fd ufd) last.fdWhead) .taken last.whead := by
    funext home
    cases home with
    | fd n =>
        rw [Function.update_of_ne (by simp)]
        exact congrFun (heads_setFdr linkClean inside _) (.fd n)
    | taken => rw [Function.update_self]; rfl
    | free => rfl
  have chains : Chains (links last.ws) linkClean (left.heads last.whead)
      (Function.update (Function.update lists (.fd ufd) kept) .taken taken) := by
    have sorted : Chains (links last.ws) linkClean
        (Function.update (self.heads linkClean) (.fd ufd) last.fdWhead)
        (Function.update lists (.fd ufd) kept) := by
      apply stores.chains.replace keptPath
      · exact keptShape ▸ distinct.filter _
      · exact fun inside => stores.chains.proper (.fd ufd) (keptIn _ inside)
      · intro home other x inKept there
        exact other (stores.chains.disjoint home (.fd ufd) x there (keptIn x inKept))
      · exact fun home other x there => congrArg WatchRec.wlink (unread home other x there)
    rw [heads]
    apply sorted.replace takenPath
    · exact takenShape ▸ distinct.filter _
    · exact fun inside => stores.chains.proper (.fd ufd) (takenIn _ inside)
    · intro home other x inTaken there
      by_cases same : home = .fd ufd
      · subst same
        rw [Function.update_self] at there
        exact apart x inTaken there
      · rw [Function.update_of_ne same] at there
        exact same (stores.chains.disjoint home (.fd ufd) x there (takenIn x inTaken))
    · exact fun _ _ _ _ => rfl
  refine ⟨⟨chains, ?_, ?_, ?_⟩, ?_⟩
  · intro home x member
    by_cases isTaken : home = .taken
    · subst isTaken
      rw [Function.update_self] at member
      exact stores.inRange _ x (takenIn x member)
    · rw [Function.update_of_ne isTaken] at member
      by_cases same : home = .fd ufd
      · subst same
        rw [Function.update_self] at member
        exact stores.inRange _ x (keptIn x member)
      · rw [Function.update_of_ne same] at member
        exact stores.inRange home x member
  · intro n before final shape
    rw [Function.update_of_ne (by simp)] at shape
    change (((self.setFdr ufd _)).fdr n).wtail = final
    rw [fdr_setFdr inside]
    by_cases same : n = ufd
    · subst same
      rw [Function.update_self] at shape ⊢
      exact tail.trans (progress.tail before final shape)
    · rw [Function.update_of_ne same]
      rw [Function.update_of_ne (by simpa using same)] at shape
      exact stores.tail n before final shape
  · intro home occupied
    have alike : (fun x => (left.ws x).held) = fun x => (self.ws x).held := funext held
    rw [alike]
    by_cases isTaken : home = .taken
    · subst isTaken
      rw [Function.update_self, Function.update_self]
      exact holdTaken
    · rw [Function.update_of_ne isTaken, Function.update_of_ne isTaken]
      by_cases same : home = .fd ufd
      · subst same
        rw [Function.update_self, Function.update_self]
        exact holdKept
      · rw [Function.update_of_ne same, Function.update_of_ne same]
        exact stores.hold home occupied
  · have ends := chains.head_eq_stop_iff .taken
    rw [Function.update_self] at ends
    change last.whead = linkClean ↔ _ at ends
    rw [ends]
    constructor
    · rintro rfl
      rw [List.map_nil] at holdTaken
      exact List.map_eq_nil_iff.mp holdTaken.symm
    · intro vacant
      rw [vacant, List.map_nil, List.map_eq_nil_iff] at holdTaken
      exact holdTaken

end Watches

end FdEventSet

end DoomDraft.Cotamer
