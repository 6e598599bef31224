import DoomDraft.Cotamer.DescriptorTable
import DoomDraft.Cotamer.FdRefinement

/-!
# What a driver watches

A driver knows a body for each descriptor that it watches, its kernel instance has what the
live watches want to know, and every registration is about the open file of the body.
-/

namespace DoomDraft.Cotamer

open FdEventSet

universe u v w

variable {δ : Type w} {β : Type u} {ε : Type v}

/-! ## Masks -/

/-- What a live watch wants is wanted. -/
theorem mask_and_wanted {isEmpty : ε → Bool} {watches : List (Watch ε)} {watch : Watch ε}
    (member : watch ∈ watches) (live : isEmpty watch.event = false) :
    watch.mask &&& wanted isEmpty watches = watch.mask := by
  have step : ∀ (watches : List (Watch ε)) (mask : FdEvent),
      mask &&& watches.foldl (fun mask watch =>
        if isEmpty watch.event then mask else mask ||| watch.mask) mask = mask ∧
      ∀ watch ∈ watches, isEmpty watch.event = false →
        watch.mask &&& watches.foldl (fun mask watch =>
          if isEmpty watch.event then mask else mask ||| watch.mask) mask = watch.mask := by
    intro watches
    induction watches with
    | nil =>
        intro mask
        simp
    | cons first rest ih =>
        intro mask
        rw [List.foldl_cons]
        by_cases dead : isEmpty first.event = true
        · rw [if_pos dead]
          refine ⟨(ih mask).1, fun watch inside live => ?_⟩
          rcases List.mem_cons.mp inside with rfl | inside
          · rw [dead] at live
            cases live
          · exact (ih mask).2 watch inside live
        · rw [if_neg dead]
          obtain ⟨kept, others⟩ := ih (mask ||| first.mask)
          generalize rest.foldl (fun mask watch =>
            if isEmpty watch.event then mask else mask ||| watch.mask) (mask ||| first.mask) =
              final at kept others ⊢
          have parts : ∀ part : FdEvent, part &&& (mask ||| first.mask) = part →
              part &&& final = part := by
            intro part inside
            calc
              part &&& final = part &&& (mask ||| first.mask) &&& final := by rw [inside]
              _ = part &&& ((mask ||| first.mask) &&& final) := BitVec.and_assoc _ _ _
              _ = part := by rw [kept, inside]
          refine ⟨parts mask ?_, fun watch inside live => ?_⟩
          · ext i
            simp
            grind
          · rcases List.mem_cons.mp inside with rfl | inside
            · apply parts
              ext i
              simp
              grind
            · exact others watch inside live
  exact (step watches 0).2 watch member live

/-- A kernel mask that has what every live watch wants has what is wanted. -/
theorem wanted_and {isEmpty : ε → Bool} {watches : List (Watch ε)} {mask : FdEvent}
    (covered : ∀ watch ∈ watches, isEmpty watch.event = false → watch.mask &&& mask = watch.mask) :
    wanted isEmpty watches &&& mask = wanted isEmpty watches := by
  unfold wanted
  have step : ∀ start : FdEvent, start &&& mask = start →
      watches.foldl (fun mask watch => if isEmpty watch.event then mask else mask ||| watch.mask)
        start &&& mask =
      watches.foldl (fun mask watch => if isEmpty watch.event then mask else mask ||| watch.mask)
        start := by
    induction watches with
    | nil => exact fun _ inside => inside
    | cons first rest ih =>
        intro start inside
        apply ih fun watch member => covered watch (List.mem_cons_of_mem first member)
        by_cases dead : isEmpty first.event = true
        · simp only [dead, if_true, inside]
        · simp only [dead, if_false, Bool.false_eq_true]
          have more := covered first List.mem_cons_self (by simpa using dead)
          calc
            (start ||| first.mask) &&& mask = start &&& mask ||| first.mask &&& mask := by
              ext i
              simp
              grind
            _ = start ||| first.mask := by rw [inside, more]
  exact step 0 BitVec.zero_and

/-! ## What holds of a driver -/

/-- What a driver knows of descriptors and what its kernel instance does, given the bodies
and the events of the process. -/
structure DriverSound (body : β → Option (FdBody δ)) (isEmpty : ε → Bool)
    (registry : Registry β ε) (driver : IoDriver β ε) : Prop where
  refines : driver.fds.Refines driver.wix registry
  tabled : driver.Tabled
  entry : ∀ fd entry, driver.epoll fd = some entry →
    userEpoch ≤ entry.epoch ∧ entry.epoch = (registry.interest fd).epoch ∧
      ∃ b listened, (registry.interest fd).body = some b ∧ body b = some listened ∧
        listened.file = entry.file
  armed : ∀ fd, ∀ watch ∈ (registry.interest fd).watches, isEmpty watch.event = false →
    fd ∉ registry.pending →
      ∃ entry, driver.epoll fd = some entry ∧ watch.mask &&& entry.mask = watch.mask
  asks : ∀ fd, ∀ watch ∈ (registry.interest fd).watches, watch.mask ≠ 0
  owned : ∀ fd, (registry.interest fd).watches ≠ [] → (registry.interest fd).body ≠ none

/-- Bodies may change except for their open file, and events may trigger. -/
theorem DriverSound.mono {body body' : β → Option (FdBody δ)} {isEmpty isEmpty' : ε → Bool}
    {registry : Registry β ε} {driver : IoDriver β ε}
    (sound : DriverSound body isEmpty registry driver)
    (sameFile : ∀ fd b listened, (registry.interest fd).body = some b → body b = some listened →
      ∃ listened', body' b = some listened' ∧ listened'.file = listened.file)
    (grows : ∀ ev, isEmpty ev = true → isEmpty' ev = true) :
    DriverSound body' isEmpty' registry driver where
  refines := sound.refines
  tabled := sound.tabled
  entry fd entry registered := by
    obtain ⟨user, epoch, b, listened, owner, known, file⟩ := sound.entry fd entry registered
    obtain ⟨listened', known', same⟩ := sameFile fd b listened owner known
    exact ⟨user, epoch, b, listened', owner, known', same.trans file⟩
  armed fd watch member live settled := by
    apply sound.armed fd watch member _ settled
    by_contra dead
    rw [grows watch.event (by simpa using dead)] at live
    cases live
  asks := sound.asks
  owned := sound.owned

/-- What is not about registrations may change. -/
theorem IoDriver.Tabled.same {driver next : IoDriver β ε} (tabled : driver.Tabled)
    (fdctl : next.fdctl = driver.fdctl) (nfdctl : next.nfdctl = driver.nfdctl)
    (epoll : next.epoll = driver.epoll) : next.Tabled := by
  have registered : next.registered = driver.registered := by
    unfold IoDriver.registered
    rw [epoll]
  constructor
  · rw [fdctl, epoll]
    exact tabled.held
  · rw [epoll]
    exact tabled.nonzero
  · rw [registered]
    exact tabled.finite
  · rw [nfdctl, registered]
    exact tabled.count

/-- The event set of a driver is replaced by one of the same queues. -/
theorem DriverSound.withFds {body : β → Option (FdBody δ)} {isEmpty : ε → Bool}
    {registry : Registry β ε} {driver next : IoDriver β ε}
    (sound : DriverSound body isEmpty registry driver)
    (refines : next.fds.Refines next.wix registry) (fdctl : next.fdctl = driver.fdctl)
    (nfdctl : next.nfdctl = driver.nfdctl) (epoll : next.epoll = driver.epoll) :
    DriverSound body isEmpty registry next := by
  refine ⟨refines, sound.tabled.same fdctl nfdctl epoll, ?_, ?_, sound.asks, sound.owned⟩
  · rw [epoll]
    exact sound.entry
  · rw [epoll]
    exact sound.armed

/-! ## Steps of one driver -/

theorem FdEventSet.Refines.taken_eq_nil {fds : FdEventSet β ε} {registry : Registry β ε}
    (refines : fds.Refines linkClean registry) : registry.taken = [] := by
  obtain ⟨lists, stores⟩ := refines.stores
  have empty := (stores.chains.head_eq_stop_iff .taken).mp rfl
  have hold := stores.hold .taken (by simp)
  rw [empty] at hold
  exact List.map_eq_nil_iff.mp hold.symm

/-- What `apply_fd_update` makes of the registration of its descriptor. -/
theorem IoDriver.registrations_eq (driver : IoDriver β ε) (fdu : FdUpdate) (file : Nat)
    (tabled : driver.Tabled) :
    (∀ n, n ≠ fdu.fd.toNat → driver.registrations fdu file n = driver.epoll n) ∧
      (fdu.mask = 0 → driver.registrations fdu file fdu.fd.toNat = none) ∧
      (fdu.mask ≠ 0 → ∃ entry, driver.registrations fdu file fdu.fd.toNat = some entry ∧
        entry.mask = fdu.mask ∧
        (entry = ⟨fdu.mask, fdu.epoch, file⟩ ∨ driver.epoll fdu.fd.toNat = some entry)) := by
  unfold registrations
  by_cases same : heldMask driver.fdctl fdu.fd.toNat = fdu.mask
  · simp only [same, if_true, implies_true, true_and]
    refine ⟨fun unwanted => ?_, fun wants => ?_⟩
    · rw [← tabled.held_eq_zero_iff, same]
      exact unwanted
    · have held := tabled.held fdu.fd.toNat
      rw [same] at held
      cases entry : driver.epoll fdu.fd.toNat with
      | none =>
          rw [entry] at held
          exact absurd held wants
      | some old =>
          rw [entry] at held
          exact ⟨old, rfl, held.symm, Or.inr rfl⟩
  · simp only [same, if_false]
    refine ⟨fun n other => Function.update_of_ne other _ _, fun unwanted => ?_, fun wants => ?_⟩
    · rw [Function.update_self, if_pos unwanted]
    · rw [Function.update_self, if_neg wants]
      exact ⟨_, rfl, rfl, Or.inl rfl⟩

namespace DriverSound

variable {body : β → Option (FdBody δ)} {isEmpty isEmpty' : ε → Bool} {registry : Registry β ε}
  {driver : IoDriver β ε}

/-- The open file behind a descriptor that is wanted or registered, if there is any. -/
theorem exists_file (sound : DriverSound body isEmpty registry driver) {os : Nat → Option Nat}
    (opened : ∀ fd b, (registry.interest fd).body = some b →
      ∃ listened, body b = some listened ∧ os fd = some listened.file) (fd : Nat) :
    ∃ file, (wanted isEmpty (registry.interest fd).watches ≠ 0 ∨ driver.epoll fd ≠ none →
        os fd = some file ∧ ∃ b listened, (registry.interest fd).body = some b ∧
          body b = some listened ∧ listened.file = file) ∧
      ∀ entry, driver.epoll fd = some entry → entry.file = file := by
  cases owner : (registry.interest fd).body with
  | none =>
      have idle : (registry.interest fd).watches = [] := by
        by_contra any
        exact sound.owned fd any owner
      have unregistered : driver.epoll fd = none := by
        cases entry : driver.epoll fd with
        | none => rfl
        | some old =>
            obtain ⟨-, -, b, _, interest, -⟩ := sound.entry fd old entry
            rw [owner] at interest
            cases interest
      refine ⟨0, fun used => ?_, fun entry here => ?_⟩
      · rw [idle, unregistered] at used
        simp [wanted] at used
      · rw [unregistered] at here
        cases here
  | some b =>
      obtain ⟨listened, has, isOpen⟩ := opened fd b owner
      refine ⟨listened.file, fun _ => ⟨isOpen, b, listened, rfl, has, rfl⟩, fun entry here => ?_⟩
      obtain ⟨-, -, b', listened', interest, has', same⟩ := sound.entry fd entry here
      rw [owner] at interest
      obtain rfl := Option.some.inj interest
      rw [has] at has'
      obtain rfl := Option.some.inj has'
      exact same.symm

/-- A descriptor is reconciled: what is wanted of it is registered. -/
theorem reconcile (sound : DriverSound body isEmpty registry driver) (os : Nat → Option Nat)
    (opened : ∀ fd b, (registry.interest fd).body = some b →
      ∃ listened, body b = some listened ∧ os fd = some listened.file) :
    ∃ left, driver.fds.popUpdate isEmpty = some (left, (registry.update isEmpty).2) ∧
      match (registry.update isEmpty).2 with
      | none => DriverSound body isEmpty (registry.update isEmpty).1 driver
      | some fdu => ∃ after, ({ driver with fds := left } : IoDriver β ε).applyFdUpdate os fdu =
          some after ∧ after.migrateFdClose = driver.migrateFdClose ∧
          after.batch = driver.batch ∧ after.source = driver.source ∧
          DriverSound body isEmpty (registry.update isEmpty).1 after := by
  obtain ⟨left, run, refines⟩ := sound.refines.popUpdate isEmpty
  refine ⟨left, run, ?_⟩
  cases waiting : registry.pending with
  | nil =>
      have same : registry.update isEmpty = (registry, none) := by
        unfold Registry.update
        rw [waiting]
      rw [same]
      exact sound
  | cons fd rest =>
      have inside := sound.refines.lt_of_mem (waiting ▸ List.mem_cons_self)
      have small := sound.refines.records.small
      have number : (BitVec.ofNat 32 fd).toNat = fd := by
        rw [BitVec.toNat_ofNat]
        omega
      generalize asked : wanted isEmpty (registry.interest fd).watches = mask
      generalize known : (if mask ≠ 0 ∧ (registry.interest fd).epoch < userEpoch then userEpoch
        else (registry.interest fd).epoch) = epoch
      generalize remains : (if mask = 0 then (registry.interest fd).epoch + 1 else epoch) = next
      have updated : registry.update isEmpty =
          ({ registry.set fd { registry.interest fd with epoch := next } with pending := rest },
            some ⟨BitVec.ofNat 32 fd, mask, epoch⟩) := by
        unfold Registry.update
        simp only [waiting, asked, known, remains]
      rw [updated] at refines ⊢
      obtain ⟨file, hasFile, own⟩ := sound.exists_file opened fd
      rw [asked] at hasFile
      have tabled : ({ driver with fds := left } : IoDriver β ε).Tabled :=
        sound.tabled.same rfl rfl rfl
      obtain ⟨fdctl, nfdctl, applied, tabled'⟩ := tabled.exists_applyFdUpdate os
        ⟨BitVec.ofNat 32 fd, mask, epoch⟩ file (fun used => by
          rw [number] at used ⊢
          exact (hasFile used).1)
        (fun entry here => own entry (by rwa [number] at here))
      have regs := ({ driver with fds := left } : IoDriver β ε).registrations_eq
        ⟨BitVec.ofNat 32 fd, mask, epoch⟩ file tabled
      rw [number] at regs
      generalize ({ driver with fds := left } : IoDriver β ε).registrations
        ⟨BitVec.ofNat 32 fd, mask, epoch⟩ file = epoll at applied tabled' regs
      obtain ⟨others, idle, busy⟩ := regs
      have wantsUser : mask ≠ 0 → userEpoch ≤ epoch ∧ next = epoch := by
        intro wants
        rw [← remains, if_neg wants]
        refine ⟨?_, rfl⟩
        rw [← known]
        split
        · exact BitVec.le_refl _
        · rename_i stays
          exact BitVec.not_lt.mp fun low => stays ⟨wants, low⟩
      refine ⟨_, applied, rfl, rfl, rfl, refines, tabled',
        fun n entry (here : epoll n = some entry) => ?_,
        fun n watch member live settled => ?_, fun n watch member => ?_, fun n any => ?_⟩
      · by_cases same : n = fd
        · subst same
          have wants : mask ≠ 0 := by
            intro unwanted
            rw [idle unwanted] at here
            cases here
          obtain ⟨entry', here', -, which⟩ := busy wants
          rw [here'] at here
          obtain rfl := Option.some.inj here
          obtain ⟨user, nextEq⟩ := wantsUser wants
          obtain ⟨b, listened, owner, has, sameFile⟩ := (hasFile (Or.inl wants)).2
          simp only [Registry.set, Function.update_self]
          rcases which with rfl | old
          · exact ⟨user, nextEq.symm, b, listened, owner, has, sameFile⟩
          · obtain ⟨user', epoch', rest'⟩ := sound.entry n entry' old
            have current : epoch = (registry.interest n).epoch := by
              rw [← known, if_neg]
              rintro ⟨-, low⟩
              rw [← epoch'] at low
              exact BitVec.not_lt.mpr user' low
            exact ⟨user', epoch'.trans (current.symm.trans nextEq.symm), rest'⟩
        · rw [others n same] at here
          simp only [Registry.set, Function.update_of_ne same]
          exact sound.entry n entry here
      · change ∃ entry, epoll n = some entry ∧ _
        by_cases same : n = fd
        · subst same
          simp only [Registry.set, Function.update_self] at member
          have inMask := mask_and_wanted member live
          rw [asked] at inMask
          have wants : mask ≠ 0 := by
            rintro rfl
            apply sound.asks n watch member
            rw [← inMask]
            exact BitVec.and_zero
          obtain ⟨entry, here, sameMask, -⟩ := busy wants
          exact ⟨entry, here, sameMask.symm ▸ inMask⟩
        · simp only [Registry.set, Function.update_of_ne same] at member
          rw [others n same]
          apply sound.armed n watch member live
          rw [waiting, List.mem_cons, not_or]
          exact ⟨same, settled⟩
      · by_cases same : n = fd
        · subst same
          simp only [Registry.set, Function.update_self] at member
          exact sound.asks n watch member
        · simp only [Registry.set, Function.update_of_ne same] at member
          exact sound.asks n watch member
      · by_cases same : n = fd
        · subst same
          simp only [Registry.set, Function.update_self] at any ⊢
          exact sound.owned n any
        · simp only [Registry.set, Function.update_of_ne same] at any ⊢
          exact sound.owned n any

/-- A notification takes watches; a descriptor whose queue changes is to be reconciled. -/
theorem take (sound : DriverSound body isEmpty registry driver)
    (drained : driver.wix = linkClean) (fd : BitVec 32) (imask : FdEvent) (epoch : BitVec 32)
    (batch : List Notification) (source : Nat) :
    ∃ left wix, driver.fds.takeWatchList isEmpty fd imask epoch = some (left, wix) ∧
      DriverSound body isEmpty (registry.take isEmpty fd.toNat imask epoch)
        { driver with fds := left, batch := batch, wix := wix, source := source } ∧
      ∀ n, ((registry.take isEmpty fd.toNat imask epoch).interest n).body =
        (registry.interest n).body := by
  have refines := sound.refines
  rw [drained] at refines
  have idle := refines.taken_eq_nil
  obtain ⟨left, wix, run, refines', -⟩ := refines.takeWatchList idle isEmpty fd imask epoch
  refine ⟨left, wix, run, ?_⟩
  have tabled : ({ driver with fds := left, batch := batch, wix := wix, source := source } :
      IoDriver β ε).Tabled :=
    sound.tabled.same rfl rfl rfl
  -- either nothing has changed, or the watches that are not concerned are left
  have shape : registry.take isEmpty fd.toNat imask epoch = registry ∨
      ∃ kept ⊆ (registry.interest fd.toNat).watches, ∃ taken,
        registry.take isEmpty fd.toNat imask epoch =
          { (registry.set fd.toNat { registry.interest fd.toNat with watches := kept }).note
            fd.toNat with taken := taken } := by
    simp only [Registry.take]
    split
    · exact Or.inl rfl
    · exact Or.inr ⟨_, fun _ member => List.mem_of_mem_filter member, _, rfl⟩
  rcases shape with same | ⟨kept, sub, taken, changed⟩
  · rw [same] at refines' ⊢
    exact ⟨⟨refines', tabled, sound.entry, sound.armed, sound.asks, sound.owned⟩, fun _ => rfl⟩
  · rw [changed] at refines' ⊢
    have fields : ∀ n, (((registry.set fd.toNat { registry.interest fd.toNat with
        watches := kept }).note fd.toNat).interest n).body = (registry.interest n).body ∧
        (((registry.set fd.toNat { registry.interest fd.toNat with
          watches := kept }).note fd.toNat).interest n).epoch = (registry.interest n).epoch ∧
        ∀ watch ∈ (((registry.set fd.toNat { registry.interest fd.toNat with
          watches := kept }).note fd.toNat).interest n).watches,
          watch ∈ (registry.interest n).watches := by
      intro n
      simp only [Registry.note, Registry.set]
      by_cases here : n = fd.toNat
      · subst here
        simp only [Function.update_self, true_and]
        exact sub
      · simp only [Function.update_of_ne here, true_and]
        exact fun _ member => member
    refine ⟨⟨refines', tabled, fun n entry here => ?_, fun n watch member live settled => ?_,
      fun n watch member => sound.asks n watch ((fields n).2.2 watch member), fun n any => ?_⟩,
      fun n => (fields n).1⟩
    · obtain ⟨user, sameEpoch, b, listened, owner, rest⟩ := sound.entry n entry here
      exact ⟨user, sameEpoch.trans (fields n).2.1.symm, b, listened,
        (fields n).1.trans owner, rest⟩
    · have notHere : n ∉ registry.pending ∧ n ≠ fd.toNat := by
        change n ∉ (if fd.toNat ∈ registry.pending then registry.pending
          else fd.toNat :: registry.pending) at settled
        split at settled
        · rename_i already
          exact ⟨settled, fun same => settled (same ▸ already)⟩
        · rw [List.mem_cons, not_or] at settled
          exact ⟨settled.2, settled.1⟩
      exact sound.armed n watch ((fields n).2.2 watch member) live notHere.1
    · rw [Ne, (fields n).1]
      apply sound.owned n
      obtain ⟨watch, member⟩ := List.exists_mem_of_ne_nil _ any
      exact List.ne_nil_of_mem ((fields n).2.2 watch member)

/-- An event that has been taken is handed out. -/
theorem pop (sound : DriverSound body isEmpty registry driver) (any : driver.wix ≠ linkClean)
    (mask : FdEvent) :
    ∃ first rest, registry.taken = first :: rest ∧
      driver.fds.popWatchListEvent driver.wix mask = (driver.fds.release driver.wix,
        links driver.fds.ws driver.wix, some first.event, if mask ≠ 0 then some mask else none) ∧
      DriverSound body isEmpty { registry with taken := rest } { driver with
        fds := driver.fds.release driver.wix, wix := links driver.fds.ws driver.wix } := by
  obtain ⟨first, rest, queue, run, refines⟩ := sound.refines.popWatchListEvent any mask
  exact ⟨first, rest, queue, run, refines, sound.tabled.same rfl rfl rfl, sound.entry,
    sound.armed, sound.asks, sound.owned⟩

theorem mem_note {registry : Registry β ε} {fd n : Nat} :
    n ∈ (registry.note fd).pending ↔ n = fd ∨ n ∈ registry.pending := by
  unfold Registry.note
  by_cases already : fd ∈ registry.pending
  · rw [if_pos already]
    refine ⟨Or.inr, ?_⟩
    rintro (rfl | member)
    · exact already
    · exact member
  · rw [if_neg already, List.mem_cons]

/-- A watch joins the queue of a descriptor, which is to be reconciled. -/
theorem join (sound : DriverSound body isEmpty registry driver) {fd : Nat} {b : β}
    (owner : (registry.interest fd).body = none ∨ (registry.interest fd).body = some b)
    {imask : FdEvent} (asks : imask ≠ 0) {ev : ε} {left : FdEventSet β ε}
    (refines : left.Refines driver.wix (registry.join fd imask b ev)) :
    DriverSound body isEmpty (registry.join fd imask b ev) { driver with fds := left } := by
  have here : (registry.join fd imask b ev).interest fd = { registry.interest fd with
      body := some b, watches := (registry.interest fd).watches ++ [⟨ev, imask⟩] } := by
    simp [Registry.join, Registry.set]
  have others : ∀ n, n ≠ fd →
      (registry.join fd imask b ev).interest n = registry.interest n := by
    intro n other
    simp [Registry.join, Registry.set, Registry.note, other]
  refine ⟨refines, sound.tabled.same rfl rfl rfl, fun n entry registered => ?_,
    fun n watch member live settled => ?_, fun n watch member => ?_, fun n any => ?_⟩
  · obtain ⟨user, epoch, b', listened, interest, rest⟩ := sound.entry n entry registered
    by_cases same : n = fd
    · subst same
      rw [interest] at owner
      obtain rfl : b' = b := by simpa using owner
      rw [here]
      exact ⟨user, epoch, b', listened, rfl, rest⟩
    · rw [others n same]
      exact ⟨user, epoch, b', listened, interest, rest⟩
  · have notPending : n ∉ (registry.note fd).pending := settled
    rw [mem_note, not_or] at notPending
    rw [others n notPending.1] at member
    exact sound.armed n watch member live notPending.2
  · by_cases same : n = fd
    · subst same
      rw [here] at member
      rcases List.mem_append.mp member with old | new
      · exact sound.asks n watch old
      · rw [List.mem_singleton.mp new]
        exact asks
    · rw [others n same] at member
      exact sound.asks n watch member
  · by_cases same : n = fd
    · subst same
      rw [here]
      simp
    · rw [others n same] at any ⊢
      exact sound.owned n any

/-- A closed body is given up: its descriptor is taken off the kernel's list. -/
theorem giveUp (sound : DriverSound body isEmpty registry driver) {closed : β → Bool}
    {fd : BitVec 32} {b : β} (owner : (registry.interest fd.toNat).body = some b)
    (done : closed b = true) {os : Nat → Option Nat} {listened : FdBody δ}
    (known : body b = some listened) (opened : os fd.toNat = some listened.file) :
    ∃ left after, driver.fds.fdClose closed fd = some (left,
        ⟨some (b, (registry.interest fd.toNat).epoch),
          (registry.interest fd.toNat).watches.map Watch.event⟩) ∧
      ({ driver with fds := left } : IoDriver β ε).applyFdUpdate os
        ⟨fd, 0, (registry.interest fd.toNat).epoch⟩ = some after ∧
      after.migrateFdClose = driver.migrateFdClose ∧ after.batch = driver.batch ∧
      after.source = driver.source ∧
      DriverSound body isEmpty (registry.close closed fd.toNat).1 after ∧
      ∀ n b', ((registry.close closed fd.toNat).1.interest n).body = some b' ↔
        n ≠ fd.toNat ∧ (registry.interest n).body = some b' := by
  obtain ⟨left, run, refines, -⟩ := sound.refines.fdClose closed fd
  have result : registry.close closed fd.toNat =
      ((registry.set fd.toNat { epoch := (registry.interest fd.toNat).epoch + 1 }).note fd.toNat,
        ⟨some (b, (registry.interest fd.toNat).epoch),
          (registry.interest fd.toNat).watches.map Watch.event⟩) := by
    simp only [Registry.close, owner, done, if_true]
  have tabled : ({ driver with fds := left } : IoDriver β ε).Tabled :=
    sound.tabled.same rfl rfl rfl
  obtain ⟨fdctl, nfdctl, applied, tabled'⟩ := tabled.exists_applyFdUpdate os
    ⟨fd, 0, (registry.interest fd.toNat).epoch⟩ listened.file (fun _ => opened)
    (fun entry here => by
      obtain ⟨-, -, b', listened', interest, known', same⟩ := sound.entry fd.toNat entry here
      rw [owner] at interest
      obtain rfl := Option.some.inj interest
      rw [known] at known'
      obtain rfl := Option.some.inj known'
      exact same.symm)
  have regs := ({ driver with fds := left } : IoDriver β ε).registrations_eq
    ⟨fd, 0, (registry.interest fd.toNat).epoch⟩ listened.file tabled
  generalize ({ driver with fds := left } : IoDriver β ε).registrations
    ⟨fd, 0, (registry.interest fd.toNat).epoch⟩ listened.file = epoll at applied tabled' regs
  obtain ⟨others, idle, -⟩ := regs
  rw [result] at run refines ⊢
  have here : ((registry.set fd.toNat { epoch := (registry.interest fd.toNat).epoch + 1 }).note
      fd.toNat).interest fd.toNat = { epoch := (registry.interest fd.toNat).epoch + 1 } := by
    simp [Registry.set, Registry.note]
  have elsewhere : ∀ n, n ≠ fd.toNat → ((registry.set fd.toNat
      { epoch := (registry.interest fd.toNat).epoch + 1 }).note fd.toNat).interest n =
      registry.interest n := by
    intro n other
    simp [Registry.set, Registry.note, other]
  refine ⟨left, _, run, applied, rfl, rfl, rfl, ⟨refines, tabled',
    fun n entry (registered : epoll n = some entry) => ?_,
    fun n watch member live settled => ?_, fun n watch member => ?_, fun n any => ?_⟩,
    fun n b' => ?_⟩
  · by_cases same : n = fd.toNat
    · subst same
      rw [idle rfl] at registered
      cases registered
    · rw [others n same] at registered
      rw [elsewhere n same]
      exact sound.entry n entry registered
  · change ∃ entry, epoll n = some entry ∧ _
    rw [mem_note, not_or] at settled
    rw [elsewhere n settled.1] at member
    rw [others n settled.1]
    exact sound.armed n watch member live settled.2
  · by_cases same : n = fd.toNat
    · subst same
      rw [here] at member
      cases member
    · rw [elsewhere n same] at member
      exact sound.asks n watch member
  · by_cases same : n = fd.toNat
    · subst same
      rw [here] at any
      exact absurd rfl any
    · rw [elsewhere n same] at any ⊢
      exact sound.owned n any
  · by_cases same : n = fd.toNat
    · subst same
      rw [here]
      simp
    · rw [elsewhere n same]
      simp [same]

end DriverSound

end DoomDraft.Cotamer
