import DoomDraft.Paxos.Safety

/-!
# Responses to clients

Whatever replica answers a serial, and however often, the answer is the same:
it is the result of executing the leader-committed entries in slot order up to
the first one that holds the serial.
-/

namespace DoomDraft.Paxos

open Pancy Consensus

variable {n : Nat}

/-- The entries of the leader-committed slots from slot 1 up to the first slot
that holds `serial`. -/
structure CommittedThrough (history : Trace n) (serial : Nat) (entries : List LogEntry) :
    Prop where
  slots : ∀ i entry, entries[i]? = some entry → entry.slot = i + 1
  committed : ∀ entry ∈ entries, history.LeaderCommitted entry
  last : ∃ entry, entries.getLast? = some entry ∧ entry.req.serial = serial
  first : ∀ entry ∈ entries.dropLast, entry.req.serial ≠ serial

/-! ## Replaying a log -/

theorem execute_of_cached {state : PancyDb × (Nat → Option Response)} {entry : LogEntry}
    {serial : Nat} {resp : Response} (cached : state.2 serial = some resp) :
    (execute state entry).2 serial = some resp := by
  unfold execute
  split
  · exact cached
  · rename_i missing
    have other : serial ≠ entry.req.serial := by
      rintro rfl
      exact missing (by simp [cached])
    simp only [Function.update_of_ne other]
    exact cached

theorem execute_of_ne {state : PancyDb × (Nat → Option Response)} {entry : LogEntry}
    {serial : Nat} (other : serial ≠ entry.req.serial) :
    (execute state entry).2 serial = state.2 serial := by
  unfold execute
  split
  · rfl
  · simp only [Function.update_of_ne other]

theorem execute_own_isSome (state : PancyDb × (Nat → Option Response)) (entry : LogEntry) :
    ((execute state entry).2 entry.req.serial).isSome = true := by
  unfold execute
  split
  · assumption
  · simp

/-- A serial without a response is in none of the entries. -/
theorem ne_of_replay_none {entries : List LogEntry} {serial : Nat}
    (missing : (replay entries).2 serial = none) :
    ∀ entry ∈ entries, entry.req.serial ≠ serial := by
  induction entries using List.reverseRecOn with
  | nil => simp
  | append_singleton entries last ih =>
      rw [replay_append] at missing
      have other : serial ≠ last.req.serial := by
        rintro rfl
        have present := execute_own_isSome (replay entries) last
        rw [missing] at present
        contradiction
      rw [execute_of_ne other] at missing
      intro entry member
      rcases List.mem_append.mp member with old | new
      · exact ih missing entry old
      · rw [List.mem_singleton.mp new]
        exact other.symm

/-- A cached response was computed at the first entry of its serial. -/
theorem exists_first_of_replay {entries : List LogEntry} {serial : Nat} {resp : Response}
    (cached : (replay entries).2 serial = some resp) :
    ∃ before entry, before ++ [entry] <+: entries ∧ entry.req.serial = serial ∧
      (∀ other ∈ before, other.req.serial ≠ serial) ∧
      (replay (before ++ [entry])).2 serial = some resp := by
  induction entries using List.reverseRecOn with
  | nil => simp [replay] at cached
  | append_singleton entries last ih =>
      cases earlier : (replay entries).2 serial with
      | some other =>
          rw [replay_append, execute_of_cached earlier] at cached
          obtain ⟨before, entry, isPrefix, rest⟩ := ih (earlier.trans cached)
          exact ⟨before, entry, isPrefix.trans (List.prefix_append _ _), rest⟩
      | none =>
          refine ⟨entries, last, List.prefix_rfl, ?_, ne_of_replay_none earlier, cached⟩
          by_contra other
          rw [replay_append, execute_of_ne (Ne.symm other), earlier] at cached
          contradiction

/-! ## The committed log -/

theorem length_storedThrough {log : List (Entry Request)} {count : Nat}
    (filled : ∀ slot, 0 < slot → slot ≤ count → ∃ entry, entryAt log slot = some entry) :
    (storedThrough log count).length = count := by
  induction count with
  | zero => rfl
  | succ count ih =>
      obtain ⟨entry, found⟩ := filled (count + 1) (Nat.succ_pos count) le_rfl
      rw [storedThrough_succ found, List.length_append,
        ih fun slot positive le => filled slot positive (Nat.le_succ_of_le le)]
      rfl

theorem slot_of_storedThrough {log : List (Entry Request)} {count i : Nat} {kept : LogEntry}
    (filled : ∀ slot, 0 < slot → slot ≤ count → ∃ entry, entryAt log slot = some entry)
    (found : (storedThrough log count)[i]? = some kept) : kept.slot = i + 1 := by
  induction count with
  | zero => simp [storedThrough] at found
  | succ count ih =>
      obtain ⟨entry, last⟩ := filled (count + 1) (Nat.succ_pos count) le_rfl
      have filledBelow : ∀ slot, 0 < slot → slot ≤ count → ∃ entry, entryAt log slot = some entry :=
        fun slot positive le => filled slot positive (Nat.le_succ_of_le le)
      have length := length_storedThrough filledBelow
      rw [storedThrough_succ last] at found
      rcases Nat.lt_or_ge i count with below | above
      · rw [List.getElem?_append_left (by omega)] at found
        exact ih filledBelow found
      · rw [List.getElem?_append_right (by omega), length] at found
        obtain ⟨bound, keptEq⟩ := List.getElem?_eq_some_iff.mp found
        simp only [List.length_singleton] at bound
        obtain rfl : i = count := by omega
        simp only [Nat.sub_self, List.getElem_cons_zero] at keptEq
        rw [← keptEq]
        rfl

/-- The responses that a leader may send come from the committed log. -/
theorem SoundResponse.exists_committedThrough {history : Trace n} {resp : Response}
    (sound : SoundResponse history resp) :
    ∃ entries, CommittedThrough history resp.serial entries ∧
      (replay entries).2 resp.serial = some resp := by
  obtain ⟨log, count, committed, cached⟩ := sound
  obtain ⟨before, entry, isPrefix, holds, earlier, replayed⟩ := exists_first_of_replay cached
  refine ⟨before ++ [entry], ⟨?_, ?_, ⟨entry, by simp, holds⟩, by simpa using earlier⟩, replayed⟩
  · intro i other found
    have extended : (storedThrough log count)[i]? = some other := by
      obtain ⟨more, moreEq⟩ := isPrefix
      rw [← moreEq, List.getElem?_append_left (List.getElem?_eq_some_iff.mp found).1, found]
    refine slot_of_storedThrough (fun slot positive le => ?_) extended
    obtain ⟨source, sourceFound, -⟩ := committed slot positive le
    exact ⟨source, sourceFound⟩
  · intro other member
    obtain ⟨slot, source, le, found, rfl⟩ := mem_storedThrough.mp (isPrefix.subset member)
    obtain ⟨same, sameFound, leaderCommitted⟩ := committed slot (entryAt_bounds found).1 le
    rw [found] at sameFound
    cases sameFound
    exact leaderCommitted

section Uniqueness

variable {history : Trace n} {serial : Nat} {left right : List LogEntry}

theorem CommittedThrough.getElem?_eq
    (unique : ∀ first second, history.LeaderCommitted first → history.LeaderCommitted second →
      first.slot = second.slot → first = second)
    (leftThrough : CommittedThrough history serial left)
    (rightThrough : CommittedThrough history serial right) {i : Nat}
    (leftBound : i < left.length) (rightBound : i < right.length) : left[i] = right[i] := by
  have leftFound := List.getElem?_eq_getElem leftBound
  have rightFound := List.getElem?_eq_getElem rightBound
  apply unique _ _ (leftThrough.committed _ (List.getElem_mem leftBound))
    (rightThrough.committed _ (List.getElem_mem rightBound))
  rw [leftThrough.slots i _ leftFound, rightThrough.slots i _ rightFound]

/-- There is only one committed log up to the first slot of a serial. -/
theorem CommittedThrough.eq_of_length_le
    (unique : ∀ first second, history.LeaderCommitted first → history.LeaderCommitted second →
      first.slot = second.slot → first = second)
    (leftThrough : CommittedThrough history serial left)
    (rightThrough : CommittedThrough history serial right)
    (le : left.length ≤ right.length) : left = right := by
  have agree : ∀ i (bound : i < left.length), left[i] = right[i] := fun i bound =>
    leftThrough.getElem?_eq unique rightThrough bound (bound.trans_le le)
  rcases Nat.lt_or_eq_of_le le with shorter | lengthEq
  · -- The last entry of the shorter log is not the last of the longer one.
    obtain ⟨entry, isLast, holds⟩ := leftThrough.last
    rw [List.getLast?_eq_getElem?] at isLast
    obtain ⟨bound, atEnd⟩ := List.getElem?_eq_some_iff.mp isLast
    have dropped : left.length - 1 < right.dropLast.length := by
      rw [List.length_dropLast]
      omega
    refine absurd holds (rightThrough.first entry (List.mem_iff_getElem.mpr ⟨_, dropped, ?_⟩))
    rw [List.getElem_dropLast, ← agree _ bound, atEnd]
  · exact List.ext_getElem lengthEq fun i bound _ => agree i bound

theorem CommittedThrough.eq
    (unique : ∀ first second, history.LeaderCommitted first → history.LeaderCommitted second →
      first.slot = second.slot → first = second)
    (leftThrough : CommittedThrough history serial left)
    (rightThrough : CommittedThrough history serial right) : left = right := by
  rcases Nat.le_total left.length right.length with le | le
  · exact leftThrough.eq_of_length_le unique rightThrough le
  · exact (rightThrough.eq_of_length_le unique leftThrough le).symm

end Uniqueness

/-! ## Agreement of responses -/

/-- Every response other than a redirection is the result of executing the
committed log up to the first slot of its serial, which exists, so any two
responses to one serial are equal. -/
theorem response_agreement {initialLeader : Fin n} {actions : List (Action n)} {s : System n}
    (run : (System.initial initialLeader).perform actions = some s) {i j : Fin n}
    {first second : Response} (firstSent : (i, Event.respond first) ∈ s.history)
    (secondSent : (j, Event.respond second) ∈ s.history)
    (firstAnswers : first.isRedirection = false) (secondAnswers : second.isRedirection = false)
    (sameSerial : first.serial = second.serial) :
    first = second ∧ (∃ entries, CommittedThrough s.history first.serial entries) ∧
      ∀ entries, CommittedThrough s.history first.serial entries →
        (replay entries).2 first.serial = some first := by
  obtain ⟨a, implements⟩ := exists_implements run
  have unique : ∀ left right, s.history.LeaderCommitted left →
      s.history.LeaderCommitted right → left.slot = right.slot → left = right :=
    fun _ _ => implements.leaderCommitted_unique
  have sound : ∀ v resp, (v, Event.respond resp) ∈ s.history → resp.isRedirection = false →
      SoundResponse s.history resp := by
    intro v resp sent answers
    rcases implements.happened v _ sent with redirection | sound
    · rw [answers] at redirection
      contradiction
    · exact sound
  obtain ⟨entries, through, replayed⟩ :=
    (sound i first firstSent firstAnswers).exists_committedThrough
  obtain ⟨others, othersThrough, othersReplayed⟩ :=
    (sound j second secondSent secondAnswers).exists_committedThrough
  refine ⟨?_, ⟨entries, through⟩, ?_⟩
  · rw [← sameSerial] at othersThrough othersReplayed
    rw [othersThrough.eq unique through, replayed] at othersReplayed
    exact Option.some.inj othersReplayed
  · intro given givenThrough
    rw [givenThrough.eq unique through]
    exact replayed

/-- After the failover the client repeats its write to replica 1, which logs it
a second time. -/
def retriedWrite : List (Action 3) :=
  failover ++ [.request 1 0 (writeOf 0), .flush 1 0, .deliver 5, .deliver 5, .deliver 5,
    .deliver 5]

theorem response_agreement_retriedWrite : ∃ s : System 3, ∃ resp : Response,
    (System.initial 0).perform retriedWrite = some s ∧
      (0, Event.respond resp) ∈ s.history ∧ (1, Event.respond resp) ∈ s.history ∧
      resp = resp ∧ (∃ entries, CommittedThrough s.history resp.serial entries) ∧
      ∀ entries, CommittedThrough s.history resp.serial entries →
        (replay entries).2 resp.serial = some resp := by
  have facts : ((System.initial 0).perform retriedWrite).any (fun s =>
      (0, Event.respond (.put ⟨0, .ok, [], 0, 1⟩)) ∈ s.history ∧
        (1, Event.respond (.put ⟨0, .ok, [], 0, 1⟩)) ∈ s.history) = true := by
    decide +kernel
  obtain ⟨s, run, sent⟩ := (Option.any_eq_true _ _).mp facts
  obtain ⟨first, second⟩ := of_decide_eq_true sent
  exact ⟨s, _, run, first, second, response_agreement run first second rfl rfl rfl⟩

end DoomDraft.Paxos
