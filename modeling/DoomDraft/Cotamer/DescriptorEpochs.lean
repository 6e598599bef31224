import DoomDraft.Cotamer.DescriptorDrivers

/-!
# Epochs

A notification may come in when its descriptor has been closed and its number given to
another open file.  An epoch changes with every file, so that such a notification is told
from one about the new file, until epochs wrap around.
-/

namespace DoomDraft.Cotamer

open FdEventSet

universe u v w

variable {δ : Type w} {β : Type u} {ε : Type v}

/-- Behind the descriptor that a driver watches there is an open file. -/
def Registry.watches (queues : Registry β ε) (body : β → Option (FdBody δ)) (n file : Nat) :
    Prop :=
  ∃ b listened, (queues.interest n).body = some b ∧ body b = some listened ∧ listened.file = file

/-- Reconciling a descriptor leaves it to its body. -/
theorem Registry.body_update (queues : Registry β ε) (isEmpty : ε → Bool) (n : Nat) :
    ((queues.update isEmpty).1.interest n).body = (queues.interest n).body := by
  unfold Registry.update
  cases waiting : queues.pending with
  | nil => rfl
  | cons first rest =>
      by_cases same : n = first
      · subst same
        simp [Registry.set]
      · simp [Registry.set, Function.update_of_ne same]

/-- Notifications that are still to be processed are not mistaken for new ones: an epoch
says which open file a notification is about.  After `steps` steps an epoch is at most that
much larger than the first of them. -/
structure DriverFresh (body : β → Option (FdBody δ)) (installed : ε → Option Nat)
    (queues : Registry β ε) (driver : IoDriver β ε) (steps : Nat) : Prop where
  bounded : ∀ n, (queues.interest n).epoch.toNat ≤ steps + 2
  batch : ∀ notification ∈ driver.batch, 0 < notification.update.epoch.toNat ∧
    notification.update.epoch.toNat ≤
      (queues.interest notification.update.fd.toNat).epoch.toNat ∧
    (notification.update.epoch = (queues.interest notification.update.fd.toNat).epoch →
      queues.watches body notification.update.fd.toNat notification.file)
  waits : ∀ n, ∀ watch ∈ (queues.interest n).watches,
    ∃ file, queues.watches body n file ∧ installed watch.event = some file
  taken : ∀ watch ∈ queues.taken, installed watch.event = some driver.source

namespace DriverFresh

variable {body body' : β → Option (FdBody δ)} {installed installed' : ε → Option Nat}
  {queues after : Registry β ε} {driver next : IoDriver β ε} {steps : Nat}

/-- Bodies may change except for their open file, and more events may be installed. -/
theorem mono (fresh : DriverFresh body installed queues driver steps)
    (sameFile : ∀ n b listened, (queues.interest n).body = some b → body b = some listened →
      ∃ listened', body' b = some listened' ∧ listened'.file = listened.file)
    (grows : ∀ ev file, installed ev = some file → installed' ev = some file) {more : Nat}
    (le : steps ≤ more) : DriverFresh body' installed' queues driver more := by
  have watches : ∀ n file, queues.watches body n file → queues.watches body' n file := by
    rintro n file ⟨b, listened, owner, known, same⟩
    obtain ⟨listened', known', same'⟩ := sameFile n b listened owner known
    exact ⟨b, listened', owner, known', same'.trans same⟩
  constructor
  · intro n
    have bound := fresh.bounded n
    omega
  · intro notification waiting
    obtain ⟨positive, old, current⟩ := fresh.batch notification waiting
    exact ⟨positive, old, fun same => watches _ _ (current same)⟩
  · intro n watch member
    obtain ⟨file, behind, known⟩ := fresh.waits n watch member
    exact ⟨file, watches n file behind, grows _ _ known⟩
  · intro watch member
    exact grows _ _ (fresh.taken watch member)

/-- Only what waits to be processed counts. -/
theorem same (fresh : DriverFresh body installed queues driver steps)
    (sameBatch : next.batch = driver.batch) (sameSource : next.source = driver.source) :
    DriverFresh body installed queues next steps := by
  refine ⟨fresh.bounded, ?_, fresh.waits, ?_⟩
  · rw [sameBatch]
    exact fresh.batch
  · rw [sameSource]
    exact fresh.taken

/-- Where the body of a descriptor changes, its epoch advances. -/
theorem advance (fresh : DriverFresh body installed queues driver steps)
    (sameBatch : next.batch = driver.batch) (sameSource : next.source = driver.source)
    (sameTaken : after.taken = queues.taken)
    (advances : ∀ n, (queues.interest n).epoch.toNat ≤ (after.interest n).epoch.toNat ∧
      (after.interest n).epoch.toNat ≤ steps + 3)
    (keeps : ∀ n b, (after.interest n).epoch = (queues.interest n).epoch →
      (queues.interest n).body = some b → (after.interest n).body = some b)
    (waits : ∀ n, ∀ watch ∈ (after.interest n).watches,
      ∃ file, after.watches body n file ∧ installed watch.event = some file) :
    DriverFresh body installed after next (steps + 1) := by
  constructor
  · intro n
    exact (advances n).2
  · intro notification waiting
    rw [sameBatch] at waiting
    obtain ⟨positive, old, current⟩ := fresh.batch notification waiting
    refine ⟨positive, old.trans (advances _).1, fun same => ?_⟩
    -- the epoch has not advanced, so that the body is the one of before
    have stays : (after.interest notification.update.fd.toNat).epoch =
        (queues.interest notification.update.fd.toNat).epoch := by
      apply BitVec.eq_of_toNat_eq
      apply le_antisymm _ (advances _).1
      rw [← same]
      exact old
    obtain ⟨b, listened, owner, known, file⟩ := current (same.trans stays)
    exact ⟨b, listened, keeps _ b stays owner, known, file⟩
  · exact waits
  · rw [sameTaken, sameSource]
    exact fresh.taken

/-- A descriptor is reconciled. -/
theorem update (fresh : DriverFresh body installed queues driver steps)
    (small : steps + 3 < 2 ^ 32) (isEmpty : ε → Bool) (sameBatch : next.batch = driver.batch)
    (sameSource : next.source = driver.source) :
    DriverFresh body installed (queues.update isEmpty).1 next (steps + 1) := by
  have shape : ∀ n,
      ((queues.update isEmpty).1.interest n).watches = (queues.interest n).watches ∧
      (((queues.update isEmpty).1.interest n).epoch = (queues.interest n).epoch ∨
        ((queues.update isEmpty).1.interest n).epoch = (queues.interest n).epoch + 1 ∨
        ((queues.interest n).epoch < userEpoch ∧
          ((queues.update isEmpty).1.interest n).epoch = userEpoch)) := by
    intro n
    unfold Registry.update
    cases waiting : queues.pending with
    | nil => exact ⟨rfl, Or.inl rfl⟩
    | cons first rest =>
        by_cases same : n = first
        · subst same
          simp only [Registry.set, Function.update_self, true_and]
          by_cases nothing : wanted isEmpty (queues.interest n).watches = 0
          · simp only [nothing, if_true, true_or, or_true]
          · simp only [if_neg nothing]
            by_cases low : (queues.interest n).epoch < userEpoch
            · rw [if_pos ⟨nothing, low⟩]
              exact Or.inr (Or.inr ⟨low, rfl⟩)
            · rw [if_neg fun both => low both.2]
              exact Or.inl rfl
        · simp [Registry.set, Function.update_of_ne same]
  have sameTaken : (queues.update isEmpty).1.taken = queues.taken := by
    unfold Registry.update
    cases queues.pending with
    | nil => rfl
    | cons first rest => rfl
  refine fresh.advance sameBatch sameSource sameTaken (fun n => ?_) (fun n b _ owner => ?_)
    (fun n watch member => ?_)
  · have bound := fresh.bounded n
    rcases (shape n).2 with same | advanced | ⟨low, first⟩
    · rw [same]
      omega
    · rw [advanced, BitVec.toNat_add]
      have one : (1 : BitVec 32).toNat = 1 := rfl
      omega
    · rw [first]
      have two : userEpoch.toNat = 2 := rfl
      have below : (queues.interest n).epoch.toNat < userEpoch.toNat := low
      omega
  · exact (queues.body_update isEmpty n).trans owner
  · rw [(shape n).1] at member
    obtain ⟨file, ⟨b, listened, owner, known⟩, noted⟩ := fresh.waits n watch member
    exact ⟨file, ⟨b, listened, (queues.body_update isEmpty n).trans owner, known⟩, noted⟩

/-- A descriptor is given up. -/
theorem close (fresh : DriverFresh body installed queues driver steps)
    (small : steps + 3 < 2 ^ 32) (closed : β → Bool) (fd : Nat)
    (sameBatch : next.batch = driver.batch) (sameSource : next.source = driver.source) :
    DriverFresh body installed (queues.close closed fd).1 next (steps + 1) := by
  have shape : (queues.close closed fd).1 = queues ∨
      (queues.close closed fd).1 =
        (queues.set fd { epoch := (queues.interest fd).epoch + 1 }).note fd := by
    unfold Registry.close
    cases owner : (queues.interest fd).body with
    | none => exact Or.inl (by simp only [owner])
    | some b =>
        simp only [owner]
        split
        · exact Or.inr rfl
        · exact Or.inl rfl
  rcases shape with same | given
  · rw [same]
    exact (fresh.mono (fun _ _ listened _ known => ⟨listened, known, rfl⟩) (fun _ _ same => same)
      (Nat.le_succ steps)).same sameBatch sameSource
  · rw [given]
    have here : ((queues.set fd { epoch := (queues.interest fd).epoch + 1 }).note fd).interest fd =
        { epoch := (queues.interest fd).epoch + 1 } := by
      simp [Registry.set, Registry.note]
    have elsewhere : ∀ n, n ≠ fd →
        ((queues.set fd { epoch := (queues.interest fd).epoch + 1 }).note fd).interest n =
          queues.interest n := by
      intro n other
      simp [Registry.set, Registry.note, other]
    have bound := fresh.bounded fd
    have advanced : ((queues.interest fd).epoch + 1).toNat =
        (queues.interest fd).epoch.toNat + 1 := by
      rw [BitVec.toNat_add]
      have one : (1 : BitVec 32).toNat = 1 := rfl
      omega
    refine fresh.advance sameBatch sameSource rfl (fun n => ?_) (fun n b stays owner => ?_)
      (fun n watch member => ?_)
    · by_cases same : n = fd
      · subst same
        rw [here]
        simp only [advanced]
        omega
      · rw [elsewhere n same]
        have bound' := fresh.bounded n
        omega
    · by_cases same : n = fd
      · subst same
        rw [here] at stays
        have equal := congrArg BitVec.toNat stays
        simp only [advanced] at equal
        omega
      · rw [elsewhere n same]
        exact owner
    · by_cases same : n = fd
      · subst same
        rw [here] at member
        cases member
      · rw [elsewhere n same] at member
        obtain ⟨file, ⟨b, listened, owner, known⟩, noted⟩ := fresh.waits n watch member
        refine ⟨file, ⟨b, listened, ?_, known⟩, noted⟩
        rw [elsewhere n same]
        exact owner

/-- A watch of a new event joins the queue of its descriptor. -/
theorem join (fresh : DriverFresh body installed queues driver steps) {fd : Nat} {b : β}
    (owner : (queues.interest fd).body = none ∨ (queues.interest fd).body = some b)
    {listened : FdBody δ} (known : body b = some listened) (imask : FdEvent) {ev : ε}
    (new : installed ev = some listened.file) (sameBatch : next.batch = driver.batch)
    (sameSource : next.source = driver.source) :
    DriverFresh body installed (queues.join fd imask b ev) next (steps + 1) := by
  have here : (queues.join fd imask b ev).interest fd = { queues.interest fd with
      body := some b, watches := (queues.interest fd).watches ++ [⟨ev, imask⟩] } := by
    simp [Registry.join, Registry.set]
  have others : ∀ n, n ≠ fd → (queues.join fd imask b ev).interest n = queues.interest n := by
    intro n other
    simp [Registry.join, Registry.set, Registry.note, other]
  refine fresh.advance sameBatch sameSource rfl (fun n => ?_) (fun n b' _ owner' => ?_)
    (fun n watch member => ?_)
  · have bound : (queues.interest n).epoch.toNat ≤ steps + 2 := fresh.bounded n
    by_cases same : n = fd
    · subst same
      rw [here]
      exact ⟨le_refl _, bound.trans (by omega)⟩
    · rw [others n same]
      exact ⟨le_refl _, bound.trans (by omega)⟩
  · by_cases same : n = fd
    · subst same
      rw [owner'] at owner
      obtain rfl : b' = b := by simpa using owner
      rw [here]
    · rw [others n same]
      exact owner'
  · by_cases same : n = fd
    · subst same
      rw [here] at member
      rcases List.mem_append.mp member with old | last
      · obtain ⟨file, ⟨b', listened', owner', rest⟩, noted⟩ := fresh.waits n watch old
        rw [owner'] at owner
        obtain rfl : b' = b := by simpa using owner
        exact ⟨file, ⟨b', listened', by rw [here], rest⟩, noted⟩
      · rw [List.mem_singleton.mp last]
        exact ⟨listened.file, ⟨b, listened, by rw [here], known, rfl⟩, new⟩
    · rw [others n same] at member
      obtain ⟨file, ⟨b', listened', owner', rest⟩, noted⟩ := fresh.waits n watch member
      exact ⟨file, ⟨b', listened', (others n same).symm ▸ owner', rest⟩, noted⟩

/-- What a notification takes has been installed for the open file that it is about. -/
theorem take (fresh : DriverFresh body installed queues driver steps) (idle : queues.taken = [])
    (isEmpty : ε → Bool) {notification : Notification} {rest : List Notification}
    (first : driver.batch = notification :: rest) (sameBatch : next.batch = rest)
    (sameSource : next.source = notification.file) :
    DriverFresh body installed (queues.take isEmpty notification.update.fd.toNat
      notification.update.mask notification.update.epoch) next (steps + 1) := by
  obtain ⟨positive, -, current⟩ := fresh.batch notification (first ▸ List.mem_cons_self)
  have fields : (∀ n, ((queues.take isEmpty notification.update.fd.toNat notification.update.mask
        notification.update.epoch).interest n).body = (queues.interest n).body ∧
      ((queues.take isEmpty notification.update.fd.toNat notification.update.mask
        notification.update.epoch).interest n).epoch = (queues.interest n).epoch ∧
      ∀ watch ∈ ((queues.take isEmpty notification.update.fd.toNat notification.update.mask
        notification.update.epoch).interest n).watches, watch ∈ (queues.interest n).watches) ∧
      ∀ watch ∈ (queues.take isEmpty notification.update.fd.toNat notification.update.mask
        notification.update.epoch).taken,
        watch ∈ (queues.interest notification.update.fd.toNat).watches ∧
          notification.update.epoch = (queues.interest notification.update.fd.toNat).epoch := by
    simp only [Registry.take]
    split
    · exact ⟨fun n => ⟨rfl, rfl, fun _ member => member⟩, by simp [idle]⟩
    · rename_i fits
      rw [not_or, not_and_or, not_not, not_not] at fits
      refine ⟨fun n => ?_, fun watch member => ⟨List.mem_of_mem_filter member, ?_⟩⟩
      · simp only [Registry.note, Registry.set]
        by_cases here : n = notification.update.fd.toNat
        · subst here
          simp only [Function.update_self, true_and]
          exact fun _ member => List.mem_of_mem_filter member
        · simp only [Function.update_of_ne here, true_and]
          exact fun _ member => member
      · apply fits.1.resolve_left
        intro zero
        rw [zero] at positive
        exact absurd positive (by decide)
  obtain ⟨kept, taken⟩ := fields
  have watches : ∀ n file, queues.watches body n file → (queues.take isEmpty
      notification.update.fd.toNat notification.update.mask
      notification.update.epoch).watches body n file := by
    rintro n file ⟨b, listened, owner, more⟩
    exact ⟨b, listened, (kept n).1.trans owner, more⟩
  constructor
  · intro n
    rw [(kept n).2.1]
    exact (fresh.bounded n).trans (by omega)
  · intro other waiting
    rw [sameBatch] at waiting
    obtain ⟨positive', old, current'⟩ :=
      fresh.batch other (first ▸ List.mem_cons_of_mem _ waiting)
    rw [(kept _).2.1]
    exact ⟨positive', old, fun same => watches _ _ (current' same)⟩
  · intro n watch member
    obtain ⟨file, behind, known⟩ := fresh.waits n watch ((kept n).2.2 watch member)
    exact ⟨file, watches n file behind, known⟩
  · intro watch member
    obtain ⟨inside, same⟩ := taken watch member
    obtain ⟨file, ⟨b, listened, owner, known, behind⟩, noted⟩ := fresh.waits _ watch inside
    obtain ⟨b', listened', owner', known', behind'⟩ := current same
    rw [owner] at owner'
    obtain rfl := Option.some.inj owner'
    rw [known] at known'
    obtain rfl := Option.some.inj known'
    rw [noted, sameSource, ← behind, behind']

/-- The kernel reports what it has registered. -/
theorem ready (fresh : DriverFresh body installed queues driver steps) {isEmpty : ε → Bool}
    (sound : DriverSound body isEmpty queues driver) {fd : BitVec 32} {entry : Registration}
    (registered : driver.epoll fd.toNat = some entry) (mask : FdEvent) :
    DriverFresh body installed queues { driver with
      batch := driver.batch ++ [⟨⟨fd, mask, entry.epoch⟩, entry.file⟩] } (steps + 1) := by
  obtain ⟨user, current, behind⟩ := sound.entry fd.toNat entry registered
  refine ⟨fun n => (fresh.bounded n).trans (by omega), fun notification waiting => ?_,
    fresh.waits, fresh.taken⟩
  rcases List.mem_append.mp waiting with old | last
  · exact fresh.batch notification old
  · rw [List.mem_singleton.mp last]
    refine ⟨?_, (congrArg BitVec.toNat current).le, fun _ => behind⟩
    have two : userEpoch.toNat = 2 := rfl
    have least : userEpoch.toNat ≤ entry.epoch.toNat := user
    change 0 < entry.epoch.toNat
    omega

end DriverFresh

end DoomDraft.Cotamer
