import DoomDraft.Foundation.KeySorted
import DoomDraft.Lockseq.Aborts
import DoomDraft.Lockseq.Oracle

/-!
# The oracle raises no false alarm

In key order the database is a sequence of groups, and in every reachable state a
group is a lock, a run of the new value and a run of the old value.  The scan gets
through each of them.
-/

namespace DoomDraft.Lockseq

open Pancy

/-! ## The order of keys -/

/-- Strings that differ within their prefixes are ordered by the prefixes. -/
theorem append_lt_append {front other : ByteString} (less : front < other)
    (differ : ¬ front <+: other) (x y : ByteString) : front ++ x < other ++ y := by
  induction front generalizing other with
  | nil => exact absurd (List.nil_prefix) differ
  | cons b front ih =>
      cases other with
      | nil => exact absurd less (List.not_lt_nil _)
      | cons c other =>
          rw [List.cons_append, List.cons_append, List.cons_lt_cons_iff]
          rcases List.cons_lt_cons_iff.mp less with first | ⟨rfl, rest⟩
          · exact Or.inl first
          · refine Or.inr ⟨rfl, ih rest fun isPrefix => differ ?_⟩
            exact List.cons_prefix_cons.mpr ⟨rfl, isPrefix⟩

/-- The keys of a group in order. -/
def groupKeys (gid : Nat) : List ByteString :=
  makeLockKey gid :: (List.range' 0 maxSequenceLength).map (makeValueKey gid)

theorem mem_groupKeys_iff {gid : Nat} {key : ByteString} :
    key ∈ groupKeys gid ↔ IsKeyOf gid key := by
  simp [groupKeys, IsKeyOf, eq_comm]

/-- A key of a group is the prefix of the group with something behind it. -/
theorem IsKeyOf.exists_suffix {gid : Nat} {key : ByteString} (isKey : IsKeyOf gid key) :
    ∃ suffix ≠ [], key = groupPrefix gid ++ suffix := by
  rcases isKey with rfl | ⟨vid, -, rfl⟩
  · exact ⟨_, by decide, makeLockKey_eq gid⟩
  · exact ⟨_, List.cons_ne_nil _ _, makeValueKey_eq gid vid⟩

theorem suffixes_sorted :
    (ascii ['l', 'o', 'c', 'k'] :: (List.range' 0 maxSequenceLength).map valueSuffix).Pairwise
      (· < ·) := by
  decide +kernel

theorem groupKeys_sorted (gid : Nat) : (groupKeys gid).Pairwise (· < ·) := by
  have keys : groupKeys gid =
      (ascii ['l', 'o', 'c', 'k'] :: (List.range' 0 maxSequenceLength).map valueSuffix).map
        (groupPrefix gid ++ ·) := by
    simp only [groupKeys, List.map_cons, List.map_map, makeLockKey_eq]
    congr 1
    exact List.map_congr_left fun vid _ => makeValueKey_eq gid vid
  rw [keys]
  exact suffixes_sorted.map _ fun _ _ less => List.append_left_lt less

/-- The groups in the order of their keys. -/
theorem exists_sorted_groups (ngroups : Nat) : ∃ groups : List Nat,
    groups.Pairwise (fun first second => groupPrefix first < groupPrefix second) ∧
      ∀ gid, gid ∈ groups ↔ gid < ngroups := by
  let le : Nat → Nat → Bool := fun first second => groupPrefix first ≤ groupPrefix second
  have sorted : ((List.range ngroups).mergeSort le).Pairwise fun first second => le first second :=
    List.pairwise_mergeSort
      (fun a b c first second => decide_eq_true
        ((of_decide_eq_true first).trans (of_decide_eq_true second)))
      (fun a b => by simpa [le] using le_total (groupPrefix a) (groupPrefix b)) _
  have perm := List.mergeSort_perm (List.range ngroups) le
  have distinct : ((List.range ngroups).mergeSort le).Nodup :=
    perm.nodup_iff.mpr List.nodup_range
  refine ⟨(List.range ngroups).mergeSort le, ?_, fun gid => ?_⟩
  · refine (sorted.and distinct).imp fun both => ?_
    refine lt_of_le_of_ne (of_decide_eq_true both.1) fun same => both.2 ?_
    have padded := congrArg (· ++ ([] : ByteString)) same
    exact (groupPrefix_append_inj padded).1
  · rw [perm.mem_iff, List.mem_range]

theorem allKeys_sorted {groups : List Nat}
    (sorted : groups.Pairwise fun first second => groupPrefix first < groupPrefix second) :
    (groups.flatMap groupKeys).Pairwise (· < ·) := by
  rw [List.pairwise_flatMap]
  refine ⟨fun gid _ => groupKeys_sorted gid, sorted.imp fun less key isFirst other isSecond => ?_⟩
  obtain ⟨x, -, rfl⟩ := (mem_groupKeys_iff.mp isFirst).exists_suffix
  obtain ⟨y, -, rfl⟩ := (mem_groupKeys_iff.mp isSecond).exists_suffix
  refine append_lt_append less ?_ x y
  rintro ⟨rest, same⟩
  have padded := same.trans (List.append_nil _).symm
  obtain ⟨rfl, -⟩ := groupPrefix_append_inj padded
  exact lt_irrefl _ less

/-! ## Groups in the database -/

/-- The entry of a key, with the value only. -/
def entryOf (db : PancyDb) (key : ByteString) : Option (ByteString × ByteString) :=
  (db.db.find? key).map fun cell => (key, cell.value)

/-- The entries of a group in order. -/
def groupEntries (db : PancyDb) (gid : Nat) : List (ByteString × ByteString) :=
  (groupKeys gid).filterMap (entryOf db)

theorem filterMap_range'_eq_map {α : Type} {f : Nat → Option α} {g : Nat → α} {first count : Nat}
    (here : ∀ i, first ≤ i → i < first + count → f i = some (g i)) :
    (List.range' first count).filterMap f = (List.range' first count).map g := by
  rw [← List.filterMap_eq_map]
  refine List.filterMap_congr fun i member => ?_
  obtain ⟨lower, upper⟩ := List.mem_range'_1.mp member
  exact here i lower upper

theorem filterMap_range'_eq_nil {α : Type} {f : Nat → Option α} {first count : Nat}
    (nothing : ∀ i, first ≤ i → i < first + count → f i = none) :
    (List.range' first count).filterMap f = [] := by
  refine List.filterMap_eq_nil_iff.mpr fun i member => ?_
  obtain ⟨lower, upper⟩ := List.mem_range'_1.mp member
  exact nothing i lower upper

theorem range'_four (a b c d : Nat) : List.range' 0 (a + b + c + d) = List.range' 0 a ++
    (List.range' a b ++ (List.range' (a + b) c ++ List.range' (a + b + c) d)) := by
  have front := @List.range'_append_1 0 a (b + (c + d))
  rw [Nat.zero_add] at front
  rw [List.range'_append_1, List.range'_append_1, front]
  simp only [Nat.add_assoc]

/-- The values of a group are two runs. -/
theorem Laid.valueEntries_eq {db : PancyDb} {gid written cleared : Nat} {value : ByteString}
    (laid : Laid db gid value written cleared) (writtenLe : written ≤ cleared)
    (clearedLe : cleared ≤ maxSequenceLength) :
    ∃ old count, old ≠ [] ∧ cleared + count ≤ maxSequenceLength ∧
      ((List.range' 0 maxSequenceLength).map (makeValueKey gid)).filterMap (entryOf db) =
        CheckState.run gid 0 written value ++ CheckState.run gid cleared count old := by
  obtain ⟨old, stop, stopLe, nonempty, values⟩ := laid
  have entries : ∀ vid, entryOf db (makeValueKey gid vid) =
      if vid < written then some (makeValueKey gid vid, value)
      else if cleared ≤ vid ∧ vid < stop then some (makeValueKey gid vid, old)
      else none := by
    intro vid
    have stored := congrArg (Option.map (Prod.mk (makeValueKey gid vid))) (values vid)
    rw [Option.map_map] at stored
    refine Eq.trans stored ?_
    split
    · rfl
    · split <;> rfl
  refine ⟨old, stop - cleared, nonempty, by omega, ?_⟩
  have parts := range'_four written (cleared - written) (stop - cleared)
    (maxSequenceLength - (cleared + (stop - cleared)))
  rw [show written + (cleared - written) = cleared by omega,
    show cleared + (stop - cleared) + (maxSequenceLength - (cleared + (stop - cleared))) =
      maxSequenceLength by omega] at parts
  rw [List.filterMap_map, parts]
  simp only [List.filterMap_append]
  rw [filterMap_range'_eq_map (g := fun vid => (makeValueKey gid vid, value)),
    @filterMap_range'_eq_nil _ _ written,
    filterMap_range'_eq_map (g := fun vid => (makeValueKey gid vid, old)),
    @filterMap_range'_eq_nil _ _ (cleared + (stop - cleared)), List.nil_append, List.append_nil]
  · rfl
  · intro vid lower upper
    exact (entries vid).trans (by rw [if_neg (by omega), if_neg (by omega)])
  · intro vid lower upper
    exact (entries vid).trans (by rw [if_neg (by omega), if_pos (by omega)])
  · intro vid lower upper
    exact (entries vid).trans (by rw [if_neg (by omega), if_neg (by omega)])
  · intro vid lower upper
    exact (entries vid).trans (by rw [if_pos (by omega)])

/-! ## Scanning the database -/

namespace CheckState

/-- In front of the keys of a group, the scan may as well be in the group. -/
theorem scan_groupEntries {self : CheckState} {gid : Nat} (small : gid < badDigits)
    (outside : self.lastGroup = [] ∨ ∃ other ≠ gid, self.lastGroup = groupPrefix other)
    (db : PancyDb) : groupEntries db gid = [] ∨
      self.scan (groupEntries db gid) = (fresh gid).scan (groupEntries db gid) := by
  cases entries : groupEntries db gid with
  | nil => exact Or.inl rfl
  | cons entry rest =>
      refine Or.inr ?_
      have member : entry ∈ groupEntries db gid := entries ▸ List.mem_cons_self
      obtain ⟨key, isKey, isEntry⟩ := List.mem_filterMap.mp member
      obtain ⟨cell, -, rfl⟩ := Option.map_eq_some_iff.mp isEntry
      obtain ⟨suffix, long, rfl⟩ := (mem_groupKeys_iff.mp isKey).exists_suffix
      rw [scan_cons, scan_cons, checkEntry_outside small outside long]

/-- The scan gets through a group whose lock is free. -/
theorem scan_free {db : PancyDb} {gid : Nat} (free : Free db gid) :
    ∃ next, (fresh gid).scan (groupEntries db gid) = some next ∧
      next.lastGroup = groupPrefix gid := by
  obtain ⟨lock, value, written, nonempty, writtenLe, laid⟩ := free
  obtain ⟨old, count, -, countLe, values⟩ := laid.valueEntries_eq writtenLe (Nat.le_refl _)
  obtain rfl : count = 0 := by omega
  have noLock : entryOf db (makeLockKey gid) = none := by rw [entryOf, lock]; rfl
  have entries : groupEntries db gid = run gid 0 written value := by
    rw [groupEntries, groupKeys, List.filterMap_cons_none noLock, values]
    exact List.append_nil _
  have through := @scan_run (fresh gid) gid written value (inGroup_fresh gid) nonempty
    (Or.inl rfl) (by simpa [fresh] using writtenLe)
  rw [entries]
  exact ⟨_, through, rfl⟩

/-- The scan gets through a group whose lock is held. -/
theorem scan_held {db : PancyDb} {gid cid : Nat} {value : ByteString} {hold : Hold}
    (isValue : IsValueOf cid value) (held : Held db gid value hold) :
    ∃ next, (fresh gid).scan (groupEntries db gid) = some next ∧
      next.lastGroup = groupPrefix gid := by
  obtain ⟨lock, writtenLe, clearedLe, laid⟩ := held
  obtain ⟨old, count, oldNonempty, countLe, values⟩ := laid.valueEntries_eq writtenLe clearedLe
  have lockEntry : entryOf db (makeLockKey gid) = some (makeLockKey gid, value) := by
    rw [entryOf, lock]
    rfl
  have entries : groupEntries db gid = (makeLockKey gid, value) ::
      (run gid 0 hold.written value ++ run gid hold.cleared count old) := by
    rw [groupEntries, groupKeys, List.filterMap_cons_some lockEntry, values]
  obtain ⟨random, valueEq⟩ := isValue
  have long : 4 ≤ value.length := by
    simp [valueEq, clientKeyPrefix, makeClientKey, uniformHex]
  have letter : value.head? = some (byte 'c') := by
    rw [valueEq]
    rfl
  have nonempty : value ≠ [] := List.ne_nil_of_length_pos (by omega)
  have first : (fresh gid).checkEntry (makeLockKey gid) value =
      some { fresh gid with lockState := .lockedStart, expectedValue := value } := by
    rw [checkEntry_lock (inGroup_fresh gid), checkLock, if_neg (by simp [fresh]), if_neg (by omega),
      if_neg]
    simp only [letter, ne_eq, not_true_eq_false, or_false]
    omega
  have newRun := @scan_run { fresh gid with lockState := .lockedStart, expectedValue := value } gid
    hold.written value (inGroup_fresh gid) nonempty (Or.inr rfl)
    (by simpa [fresh] using writtenLe.trans clearedLe)
  obtain ⟨next, oldRun, nextGroup⟩ := @scan_old_run { fresh gid with
    lockState := .lockedStart, expectedIndex := hold.written, expectedValue := value } gid
    hold.cleared count old (inGroup_fresh gid) oldNonempty rfl writtenLe countLe
  refine ⟨next, ?_, nextGroup⟩
  rw [entries, scan_cons, first, Option.bind_some, scan_append]
  simp only [fresh, Nat.zero_add, ite_self] at newRun oldRun ⊢
  rw [newRun, Option.bind_some]
  exact oldRun

end CheckState

namespace World

variable {model : LockseqModel} {w : World model}

theorem Sound.scan_group (sound : w.Sound) (gid : Nat) :
    ∃ next, (CheckState.fresh gid).scan (groupEntries w.db gid) = some next ∧
      next.lastGroup = groupPrefix gid := by
  rcases sound.owned gid with free | ⟨cid, rfl, holds⟩
  · exact CheckState.scan_free free
  · obtain ⟨hold, holds⟩ := Option.isSome_iff_exists.mp holds
    exact CheckState.scan_held (sound.value_of_hold holds) (sound.held cid hold holds)

/-- The scan gets through one group after the other. -/
theorem Sound.scan_groups (sound : w.Sound) {groups : List Nat} (distinct : groups.Nodup)
    (small : ∀ gid ∈ groups, gid < badDigits) {self : CheckState}
    (outside : self.lastGroup = [] ∨ ∃ other ∉ groups, self.lastGroup = groupPrefix other) :
    (self.scan (groups.flatMap (groupEntries w.db))).isSome = true := by
  induction groups generalizing self with
  | nil => rfl
  | cons gid groups ih =>
      rw [List.nodup_cons] at distinct
      rw [List.forall_mem_cons] at small
      have outsideGroup : self.lastGroup = [] ∨ ∃ other ≠ gid, self.lastGroup = groupPrefix other :=
        outside.imp id fun ⟨other, notMember, isGroup⟩ =>
          ⟨other, fun same => notMember (same ▸ List.mem_cons_self), isGroup⟩
      rw [List.flatMap_cons, CheckState.scan_append]
      rcases CheckState.scan_groupEntries small.1 outsideGroup w.db with empty | entered
      · rw [empty]
        refine ih distinct.2 small.2 (outside.imp id ?_)
        rintro ⟨other, notMember, isGroup⟩
        exact ⟨other, fun member => notMember (List.mem_cons_of_mem _ member), isGroup⟩
      · obtain ⟨next, through, nextGroup⟩ := sound.scan_group gid
        rw [entered, through, Option.bind_some]
        exact ih distinct.2 small.2 (Or.inr ⟨gid, distinct.1, nextGroup⟩)

/-- The entries of the database, group by group. -/
theorem Sound.entries_eq (sound : w.Sound) {groups : List Nat}
    (sorted : groups.Pairwise fun first second => groupPrefix first < groupPrefix second)
    (all : ∀ gid, gid ∈ groups ↔ gid < model.ngroups) :
    (w.db.db.entries.map fun entry => (entry.1, entry.2.value)) =
      groups.flatMap (groupEntries w.db) := by
  have covers : ∀ key cell, w.db.db.find? key = some cell → key ∈ groups.flatMap groupKeys := by
    intro key cell found
    obtain ⟨gid, gidLt, isKey⟩ := sound.keys key cell found
    exact List.mem_flatMap.mpr ⟨gid, (all gid).mpr gidLt, mem_groupKeys_iff.mpr isKey⟩
  rw [w.db.db.entries_eq_filterMap (allKeys_sorted sorted) covers, List.map_filterMap,
    List.filterMap_flatMap]
  refine List.flatMap_congr fun gid _ => ?_
  refine List.filterMap_congr fun key _ => ?_
  rw [Option.map_map]
  rfl

theorem Sound.check_eq_none (sound : w.Sound) : check w.db = none := by
  obtain ⟨groups, sorted, all⟩ := exists_sorted_groups model.ngroups
  apply CheckState.checkEntries_eq_none
  rw [sound.entries_eq sorted all]
  refine sound.scan_groups (sorted.imp fun less same => ?_) (fun gid member => ?_) (Or.inl rfl)
  · subst same
    exact lt_irrefl _ less
  · have lower := (all gid).mp member
    have upper := model.ngroups_lt
    rw [badDigits]
    omega

/-- In every reachable state the oracle finds nothing wrong. -/
theorem no_false_alarm {actions : List (Action model)} {final : World model}
    (run : (start model).perform actions = some final) : check final.db = none :=
  (sound_of_perform run).check_eq_none

/-- The first client stops while its first value is written. -/
def abandoned : List (Action twoClients) :=
  uncontended ++ [.send (0 : Fin 2), .stop (0 : Fin 2), .arrive (.put ⟨2 * serialStep,
    makeValueKey 0 0, clientKeyPrefix 0 ++ uniformHex 0, anyVersion⟩)]

theorem no_false_alarm_abandoned : ∃ final, (start twoClients).perform abandoned = some final ∧
    final.db.db.entries.length = 2 ∧ check final.db = none := by
  have facts : ((start twoClients).perform abandoned).any (fun final =>
      final.db.db.entries.length = 2) = true := by
    decide +kernel
  obtain ⟨final, run, entries⟩ := (Option.any_eq_true _ _).mp facts
  exact ⟨final, run, of_decide_eq_true entries, no_false_alarm run⟩

end World

end DoomDraft.Lockseq
