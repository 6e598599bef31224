import Mathlib.Data.Set.Card
import DoomDraft.Cotamer.Descriptors

/-!
# The table of registrations

A driver remembers in four bits a descriptor what it has asked the kernel, so that it asks
only for changes and with the right operation.  The table agrees with the registrations.
-/

namespace DoomDraft.Cotamer

universe u v

/-! ## Four bits a descriptor -/

theorem fdcs_lt (fd : Nat) : fdcs fd + 4 ≤ 64 := by
  unfold fdcs
  omega

theorem unpackMask_getLsbD (word : BitVec 64) (fd : Nat) {i : Nat} (low : i < 3) :
    (unpackMask word fd).getLsbD i = word.getLsbD (fdcs fd + i) := by
  have ones : (15 : BitVec 64).getLsbD i = true := by
    rcases i with _ | _ | _ | i
    · rfl
    · rfl
    · rfl
    · omega
  simp only [unpackMask, BitVec.getLsbD_setWidth, BitVec.getLsbD_and, BitVec.getLsbD_ushiftRight,
    ones, Bool.and_true, low, decide_true, Bool.true_and]

theorem packMask_getLsbD (word : BitVec 64) (fd : Nat) (oldMask mask : FdEvent) (i : Nat) :
    (packMask word fd oldMask mask).getLsbD i =
      (word.getLsbD i ^^
        (decide (i < 64 ∧ fdcs fd ≤ i) && (oldMask ^^^ mask).getLsbD (i - fdcs fd))) := by
  simp only [packMask, BitVec.getLsbD_xor, BitVec.getLsbD_shiftLeft, BitVec.getLsbD_setWidth]
  congr 1
  by_cases inside : i < 64 <;> by_cases behind : fdcs fd ≤ i
  · have within : i - fdcs fd < 64 := by omega
    simp [inside, behind, within]
  · simp [inside, behind]
  · simp [inside]
  · simp [inside]

/-- The mask that has been written is read. -/
theorem unpackMask_packMask (word : BitVec 64) (fd : Nat) (mask : FdEvent) :
    unpackMask (packMask word fd (unpackMask word fd) mask) fd = mask := by
  apply BitVec.eq_of_getLsbD_eq
  intro i low
  have bound := fdcs_lt fd
  have inside : fdcs fd + i < 64 := by omega
  rw [unpackMask_getLsbD _ _ low, packMask_getLsbD, Nat.add_sub_cancel_left, BitVec.getLsbD_xor,
    unpackMask_getLsbD _ _ low]
  simp only [inside, Nat.le_add_right, and_self, decide_true, Bool.true_and]
  cases word.getLsbD (fdcs fd + i) <;> cases mask.getLsbD i <;> rfl

/-- The masks of the other descriptors of a word stay. -/
theorem unpackMask_packMask_of_ne (word : BitVec 64) {fd other : Nat} (oldMask mask : FdEvent)
    (different : other % 16 ≠ fd % 16) :
    unpackMask (packMask word fd oldMask mask) other = unpackMask word other := by
  apply BitVec.eq_of_getLsbD_eq
  intro i low
  rw [unpackMask_getLsbD _ _ low, unpackMask_getLsbD _ _ low, packMask_getLsbD]
  have away : ¬fdcs fd ≤ fdcs other + i ∨ 3 ≤ fdcs other + i - fdcs fd := by
    unfold fdcs
    omega
  rcases away with below | above
  · simp [below]
  · rw [BitVec.getLsbD_of_ge (oldMask ^^^ mask) _ above, Bool.and_false, Bool.xor_false]

theorem heldMask_resize (fdctl : List (BitVec 64)) (n fd : Nat) :
    heldMask (fdctl ++ List.replicate n 0) fd = heldMask fdctl fd := by
  unfold heldMask
  congr 1
  rw [List.getD_eq_getElem?_getD, List.getD_eq_getElem?_getD]
  by_cases inside : fd / 16 < fdctl.length
  · rw [List.getElem?_append_left inside]
  · have outside := Nat.not_lt.mp inside
    rw [List.getElem?_append_right outside, List.getElem?_eq_none outside, List.getElem?_replicate]
    split <;> rfl

theorem heldMask_set {fdctl : List (BitVec 64)} {fd : Nat} (inside : fd / 16 < fdctl.length)
    (mask : FdEvent) (other : Nat) :
    heldMask (fdctl.set (fd / 16) (packMask (fdctl.getD (fd / 16) 0) fd (heldMask fdctl fd) mask))
        other = if other = fd then mask else heldMask fdctl other := by
  unfold heldMask
  by_cases same : other = fd
  · subst same
    rw [if_pos rfl, List.getD_eq_getElem?_getD, List.getElem?_set_self inside, Option.getD_some]
    exact unpackMask_packMask _ _ _
  · rw [if_neg same]
    by_cases word : other / 16 = fd / 16
    · rw [word, List.getD_eq_getElem?_getD, List.getElem?_set_self inside, Option.getD_some]
      apply unpackMask_packMask_of_ne
      omega
    · simp only [List.getD_eq_getElem?_getD, List.getElem?_set_ne (Ne.symm word)]

/-! ## The table and the kernel -/

namespace IoDriver

variable {β : Type u} {ε : Type v}

/-- The descriptors that are registered with the kernel. -/
def registered (driver : IoDriver β ε) : Set Nat := { fd | (driver.epoll fd).isSome }

/-- The table of a driver agrees with the registrations, and counts them. -/
structure Tabled (driver : IoDriver β ε) : Prop where
  held : ∀ fd, heldMask driver.fdctl fd = ((driver.epoll fd).map Registration.mask).getD 0
  nonzero : ∀ fd entry, driver.epoll fd = some entry → entry.mask ≠ 0
  finite : driver.registered.Finite
  count : driver.nfdctl = driver.registered.ncard

theorem Tabled.held_eq_zero_iff {driver : IoDriver β ε} (tabled : driver.Tabled) (fd : Nat) :
    heldMask driver.fdctl fd = 0 ↔ driver.epoll fd = none := by
  rw [tabled.held fd]
  cases entry : driver.epoll fd with
  | none => simp
  | some old => simpa using tabled.nonzero fd old entry

/-- What `apply_fd_update` makes of the registrations. -/
def registrations (driver : IoDriver β ε) (fdu : FdUpdate) (file : Nat) :
    Nat → Option Registration :=
  if heldMask driver.fdctl fdu.fd.toNat = fdu.mask then driver.epoll
  else Function.update driver.epoll fdu.fd.toNat
    (if fdu.mask = 0 then none else some ⟨fdu.mask, fdu.epoch, file⟩)

section Apply

variable {driver : IoDriver β ε} {os : Nat → Option Nat} {fdu : FdUpdate} {file : Nat}

/-- The kernel does what it is asked. -/
theorem Tabled.epollCtl_eq (tabled : driver.Tabled)
    (opened : fdu.mask ≠ 0 ∨ driver.epoll fdu.fd.toNat ≠ none → os fdu.fd.toNat = some file)
    (own : ∀ entry, driver.epoll fdu.fd.toNat = some entry → entry.file = file)
    (changes : heldMask driver.fdctl fdu.fd.toNat ≠ fdu.mask) :
    epollCtl os driver.epoll
        (if fdu.mask ≠ 0 then
          (if heldMask driver.fdctl fdu.fd.toNat ≠ 0 then EpollOp.mod else .add)
        else .del) fdu = some (driver.registrations fdu file) := by
  have empty := tabled.held_eq_zero_iff fdu.fd.toNat
  unfold registrations
  rw [if_neg changes]
  cases entry : driver.epoll fdu.fd.toNat with
  | none =>
      have unset := empty.mpr entry
      have wants : fdu.mask ≠ 0 := fun zero => changes (unset.trans zero.symm)
      have here := opened (Or.inl wants)
      simp only [wants, unset, ne_eq, not_false_eq_true, not_true_eq_false, if_true, if_false,
        epollCtl, here, Option.bind_some, entry]
  | some old =>
      have held : heldMask driver.fdctl fdu.fd.toNat ≠ 0 := by
        rw [Ne, empty, entry]
        simp
      have here := opened (Or.inr (by simp [entry]))
      have mine := own old entry
      by_cases wants : fdu.mask = 0
      · simp only [wants, ne_eq, not_true_eq_false, if_true, if_false, epollCtl, here,
          Option.bind_some, entry, mine]
      · simp only [wants, held, ne_eq, not_false_eq_true, if_true, if_false, epollCtl, here,
          Option.bind_some, entry, mine]

/-- The number of registrations after a change. -/
theorem Tabled.ncard_registrations (tabled : driver.Tabled) {fdu : FdUpdate} {file : Nat}
    (changes : heldMask driver.fdctl fdu.fd.toNat ≠ fdu.mask) (next : IoDriver β ε)
    (entries : next.epoll = driver.registrations fdu file) :
    next.registered.Finite ∧ next.registered.ncard =
      if heldMask driver.fdctl fdu.fd.toNat = 0 then driver.nfdctl + 1
      else if fdu.mask = 0 then driver.nfdctl - 1
      else driver.nfdctl := by
  have empty := tabled.held_eq_zero_iff fdu.fd.toNat
  have shape : next.epoll = Function.update driver.epoll fdu.fd.toNat
      (if fdu.mask = 0 then none else some ⟨fdu.mask, fdu.epoch, file⟩) := by
    rw [entries]
    exact if_neg changes
  have member : ∀ fd, fd ∈ next.registered ↔
      if fd = fdu.fd.toNat then fdu.mask ≠ 0 else fd ∈ driver.registered := by
    intro fd
    unfold registered
    rw [Set.mem_ofPred_eq, shape]
    by_cases same : fd = fdu.fd.toNat
    · subst same
      rw [Function.update_self, if_pos rfl]
      split <;> simp_all
    · rw [Function.update_of_ne same, if_neg same]
      rfl
  by_cases wants : fdu.mask = 0
  · have held : heldMask driver.fdctl fdu.fd.toNat ≠ 0 := fun zero =>
      changes (zero.trans wants.symm)
    have here : fdu.fd.toNat ∈ driver.registered := by
      rw [Ne, empty] at held
      exact Option.isSome_iff_ne_none.mpr held
    have without : next.registered = driver.registered \ {fdu.fd.toNat} := by
      ext fd
      rw [member, Set.mem_sdiff, Set.mem_singleton_iff]
      split <;> simp_all
    rw [without, if_neg held, if_pos wants, tabled.count]
    exact ⟨tabled.finite.sdiff, Set.ncard_sdiff_singleton_of_mem here⟩
  · by_cases held : heldMask driver.fdctl fdu.fd.toNat = 0
    · have fresh : fdu.fd.toNat ∉ driver.registered := by
        unfold registered
        simp [empty.mp held]
      have grown : next.registered = insert fdu.fd.toNat driver.registered := by
        ext fd
        rw [member, Set.mem_insert_iff]
        split <;> simp_all
      rw [grown, if_pos held, tabled.count]
      exact ⟨tabled.finite.insert _, Set.ncard_insert_of_notMem fresh tabled.finite⟩
    · have here : fdu.fd.toNat ∈ driver.registered := by
        rw [empty] at held
        exact Option.isSome_iff_ne_none.mpr held
      have same : next.registered = driver.registered := by
        ext fd
        rw [member]
        split <;> simp_all
      rw [same, if_neg held, if_neg wants]
      exact ⟨tabled.finite, tabled.count.symm⟩

/-- `apply_fd_update` asks the kernel for what it allows, and the table agrees again. -/
theorem Tabled.exists_applyFdUpdate (tabled : driver.Tabled) (os : Nat → Option Nat)
    (fdu : FdUpdate) (file : Nat)
    (opened : fdu.mask ≠ 0 ∨ driver.epoll fdu.fd.toNat ≠ none → os fdu.fd.toNat = some file)
    (own : ∀ entry, driver.epoll fdu.fd.toNat = some entry → entry.file = file) :
    ∃ fdctl nfdctl, driver.applyFdUpdate os fdu =
        some { driver with
          fdctl := fdctl, nfdctl := nfdctl, epoll := driver.registrations fdu file } ∧
      Tabled { driver with
        fdctl := fdctl, nfdctl := nfdctl, epoll := driver.registrations fdu file } := by
  obtain ⟨fdctl, resized, alike, long⟩ : ∃ fdctl,
      (if driver.fdctl.length ≤ fdu.fd.toNat / 16 then
        driver.fdctl ++ List.replicate (fdu.fd.toNat / 16 + 1 - driver.fdctl.length) 0
      else driver.fdctl) = fdctl ∧ (∀ fd, heldMask fdctl fd = heldMask driver.fdctl fd) ∧
      fdu.fd.toNat / 16 < fdctl.length := by
    by_cases short : driver.fdctl.length ≤ fdu.fd.toNat / 16
    · rw [if_pos short]
      refine ⟨_, rfl, heldMask_resize _ _, ?_⟩
      rw [List.length_append, List.length_replicate]
      omega
    · rw [if_neg short]
      exact ⟨_, rfl, fun _ => rfl, Nat.not_le.mp short⟩
  by_cases same : heldMask driver.fdctl fdu.fd.toNat = fdu.mask
  · have kept : driver.registrations fdu file = driver.epoll := if_pos same
    refine ⟨fdctl, driver.nfdctl, ?_, ?_⟩
    · simp only [applyFdUpdate, resized, alike, same, if_true, kept]
    · rw [kept]
      exact ⟨fun fd => (alike fd).trans (tabled.held fd), tabled.nonzero, tabled.finite,
        tabled.count⟩
  · have done := tabled.epollCtl_eq opened own same
    have counted := tabled.ncard_registrations same
      { driver with epoll := driver.registrations fdu file } rfl
    refine ⟨fdctl.set (fdu.fd.toNat / 16) (packMask (fdctl.getD (fdu.fd.toNat / 16) 0)
      fdu.fd.toNat (heldMask fdctl fdu.fd.toNat) fdu.mask),
      if heldMask driver.fdctl fdu.fd.toNat = 0 then driver.nfdctl + 1
      else if fdu.mask = 0 then driver.nfdctl - 1
      else driver.nfdctl, ?_, ?_⟩
    · simp only [applyFdUpdate, resized, alike, same, if_false, done, Option.map_some]
    · have shape : driver.registrations fdu file = Function.update driver.epoll fdu.fd.toNat
          (if fdu.mask = 0 then none else some ⟨fdu.mask, fdu.epoch, file⟩) := if_neg same
      refine ⟨fun fd => ?_, fun fd entry => ?_, counted.1, counted.2.symm⟩
      · change heldMask _ fd = ((driver.registrations fdu file fd).map Registration.mask).getD 0
        rw [heldMask_set long, shape]
        by_cases here : fd = fdu.fd.toNat
        · subst here
          rw [if_pos rfl, Function.update_self]
          split
          · assumption
          · rfl
        · rw [if_neg here, Function.update_of_ne here, alike]
          exact tabled.held fd
      · change driver.registrations fdu file fd = some entry → entry.mask ≠ 0
        rw [shape]
        by_cases here : fd = fdu.fd.toNat
        · subst here
          rw [Function.update_self]
          split
          · simp
          · rename_i wants
            rintro ⟨⟩
            exact wants
        · rw [Function.update_of_ne here]
          exact tabled.nonzero fd entry

end Apply

end IoDriver

end DoomDraft.Cotamer
