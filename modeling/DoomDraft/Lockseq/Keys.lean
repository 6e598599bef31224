import DoomDraft.Lockseq.Client

/-!
# Keys of lock-sequence clients

The keys of a group share a prefix that ends at the slash.  A key belongs to one
group only, and the value of a client names the client.
-/

namespace DoomDraft.Lockseq

/-! ## Groups -/

/-- The beginning of the keys of a group. -/
def groupPrefix (gid : Nat) : ByteString :=
  makeGroupKey gid ++ [byte '/']

/-- The part of a value key behind the prefix of its group. -/
def valueSuffix (vid : Nat) : ByteString :=
  byte 'v' :: (decimal vid).leftpad 3 (byte '0')

theorem makeLockKey_eq (gid : Nat) :
    makeLockKey gid = groupPrefix gid ++ ascii ['l', 'o', 'c', 'k'] := by
  simp [makeLockKey, groupPrefix, ascii]

theorem makeValueKey_eq (gid vid : Nat) :
    makeValueKey gid vid = groupPrefix gid ++ valueSuffix vid := by
  simp [makeValueKey, groupPrefix, valueSuffix, ascii]

theorem noDigitFirst_slash (rest : ByteString) : NoDigitFirst (byte '/' :: rest) := by
  intro b member
  obtain rfl := Option.mem_some.mp member
  decide

/-- The group is the number between the first letter and the slash. -/
theorem groupPrefix_append_inj {gid other : Nat} {x y : ByteString}
    (same : groupPrefix gid ++ x = groupPrefix other ++ y) : gid = other ∧ x = y := by
  simp only [groupPrefix, makeGroupKey, List.cons_append, List.append_assoc, List.nil_append,
    List.cons.injEq, true_and] at same
  have digits := congrArg (List.takeWhile isDigit) same
  rw [takeWhile_decimal_append gid (noDigitFirst_slash x),
    takeWhile_decimal_append other (noDigitFirst_slash y)] at digits
  obtain rfl := decimal_injective digits
  exact ⟨rfl, (List.cons.inj (List.append_cancel_left same)).2⟩

theorem makeLockKey_injective : Function.Injective makeLockKey := by
  intro gid other same
  rw [makeLockKey_eq, makeLockKey_eq] at same
  exact (groupPrefix_append_inj same).1

theorem makeLockKey_ne_makeValueKey (gid other vid : Nat) :
    makeLockKey gid ≠ makeValueKey other vid := by
  intro same
  rw [makeLockKey_eq, makeValueKey_eq] at same
  have letters := (List.cons.inj (groupPrefix_append_inj same).2).1
  exact absurd letters (by decide)

/-! ## Value indices -/

theorem decimalValue_replicate_zero_append (k : Nat) (digits : ByteString) :
    decimalValue (List.replicate k (byte '0') ++ digits) = decimalValue digits := by
  induction k with
  | zero => rfl
  | succ k ih =>
      rw [List.replicate_succ, List.cons_append, decimalValue, List.foldl_cons]
      exact ih

theorem makeValueKey_injective {gid other vid otherVid : Nat}
    (same : makeValueKey gid vid = makeValueKey other otherVid) : gid = other ∧ vid = otherVid := by
  rw [makeValueKey_eq, makeValueKey_eq] at same
  obtain ⟨sameGroup, suffixes⟩ := groupPrefix_append_inj same
  have values := congrArg decimalValue (List.cons.inj suffixes).2
  rw [List.leftpad, List.leftpad, decimalValue_replicate_zero_append,
    decimalValue_replicate_zero_append, decimalValue_decimal, decimalValue_decimal] at values
  exact ⟨sameGroup, values⟩

/-! ## Clients -/

theorem noDigitFirst_space (rest : ByteString) : NoDigitFirst (byte ' ' :: rest) := by
  intro b member
  obtain rfl := Option.mem_some.mp member
  decide

/-- What starts with the prefix of one client does not start with that of another. -/
theorem clientKeyPrefix_append_inj {cid other : Nat} {x y : ByteString}
    (same : clientKeyPrefix cid ++ x = clientKeyPrefix other ++ y) : cid = other := by
  simp only [clientKeyPrefix, makeClientKey, List.cons_append, List.append_assoc, List.nil_append,
    List.cons.injEq, true_and] at same
  have digits := congrArg (List.takeWhile isDigit) same
  rw [takeWhile_decimal_append cid (noDigitFirst_space x),
    takeWhile_decimal_append other (noDigitFirst_space y)] at digits
  exact decimal_injective digits

/-- A value of a client. -/
def IsValueOf (cid : Nat) (value : ByteString) : Prop :=
  ∃ random, value = clientKeyPrefix cid ++ uniformHex random

theorem IsValueOf.inj {cid other : Nat} {value : ByteString} (mine : IsValueOf cid value)
    (theirs : IsValueOf other value) : cid = other := by
  obtain ⟨random, rfl⟩ := mine
  obtain ⟨otherRandom, same⟩ := theirs
  exact clientKeyPrefix_append_inj same

theorem IsValueOf.not_isPrefix {cid other : Nat} {value : ByteString}
    (theirs : IsValueOf other value) (different : cid ≠ other) :
    ¬ clientKeyPrefix cid <+: value := by
  obtain ⟨random, rfl⟩ := theirs
  rintro ⟨rest, same⟩
  exact different (clientKeyPrefix_append_inj same)

theorem IsValueOf.ne_nil {cid : Nat} {value : ByteString} (isValue : IsValueOf cid value) :
    value ≠ [] := by
  obtain ⟨random, rfl⟩ := isValue
  simp [clientKeyPrefix, makeClientKey]

end DoomDraft.Lockseq
