import DoomDraft.Browser.Integration

/-!
# The delta of an input

`computeDelta` replaces what is left of a text when the longest common prefix has
been cut off, and then the longest common suffix of the rests.  The second scan
stops where the first has ended, so the two never overlap, however often a letter
is repeated.
-/

namespace DoomDraft.Browser

open Document

universe u

variable {α : Type u}

/-! ## Common prefixes and suffixes -/

/-- No common prefix of the texts is longer. -/
structure LongestCommonPrefix (start first second : List α) : Prop where
  ofFirst : start <+: first
  ofSecond : start <+: second
  longest : ∀ other, other <+: first → other <+: second → other.length ≤ start.length

/-- No common suffix of the texts is longer. -/
structure LongestCommonSuffix (ending first second : List α) : Prop where
  ofFirst : ending <:+ first
  ofSecond : ending <:+ second
  longest : ∀ other, other <:+ first → other <:+ second → other.length ≤ ending.length

theorem longestCommonPrefix_self (text : List α) : LongestCommonPrefix text text text where
  ofFirst := List.prefix_rfl
  ofSecond := List.prefix_rfl
  longest _ isPrefix _ := isPrefix.length_le

theorem longestCommonSuffix_nil : LongestCommonSuffix ([] : List α) [] [] where
  ofFirst := List.suffix_rfl
  ofSecond := List.suffix_rfl
  longest _ isSuffix _ := isSuffix.length_le

theorem LongestCommonPrefix.cons {start first second : List α}
    (common : LongestCommonPrefix start first second) (a : α) :
    LongestCommonPrefix (a :: start) (a :: first) (a :: second) where
  ofFirst := List.cons_prefix_cons.mpr ⟨rfl, common.ofFirst⟩
  ofSecond := List.cons_prefix_cons.mpr ⟨rfl, common.ofSecond⟩
  longest other inFirst inSecond := by
    cases other with
    | nil => exact Nat.zero_le _
    | cons b other =>
        have shorter := common.longest other (List.cons_prefix_cons.mp inFirst).2
          (List.cons_prefix_cons.mp inSecond).2
        rw [List.length_cons, List.length_cons]
        omega

/-- Texts that begin with different letters have no common prefix. -/
theorem longestCommonPrefix_nil {first second : List α}
    (differ : ∀ a, [a] <+: first → ¬ [a] <+: second) :
    LongestCommonPrefix [] first second where
  ofFirst := List.nil_prefix
  ofSecond := List.nil_prefix
  longest other inFirst inSecond := by
    cases other with
    | nil => exact Nat.le_refl _
    | cons a other =>
        have begins : [a] <+: a :: other := ⟨other, rfl⟩
        exact absurd (begins.trans inSecond) (differ a (begins.trans inFirst))

theorem LongestCommonPrefix.reverse {start first second : List α}
    (common : LongestCommonPrefix start first.reverse second.reverse) :
    LongestCommonSuffix start.reverse first second where
  ofFirst := by
    have isPrefix := common.ofFirst
    rwa [← List.reverse_suffix, List.reverse_reverse] at isPrefix
  ofSecond := by
    have isPrefix := common.ofSecond
    rwa [← List.reverse_suffix, List.reverse_reverse] at isPrefix
  longest other inFirst inSecond := by
    have shorter := common.longest other.reverse (List.reverse_prefix.mpr inFirst)
      (List.reverse_prefix.mpr inSecond)
    rwa [List.length_reverse] at shorter ⊢

section

variable [DecidableEq α]

/-- The scan finds the longest common prefix. -/
theorem longestCommonPrefix_take : ∀ first second : List α,
    LongestCommonPrefix (first.take (commonPrefixLength first second)) first second ∧
      (first.take (commonPrefixLength first second)).length = commonPrefixLength first second
  | [], _ => by
      refine ⟨longestCommonPrefix_nil fun a begins => ?_, rfl⟩
      exact absurd (List.prefix_nil.mp begins) (List.cons_ne_nil a [])
  | _ :: _, [] => by
      refine ⟨longestCommonPrefix_nil fun a _ begins => ?_, rfl⟩
      exact absurd (List.prefix_nil.mp begins) (List.cons_ne_nil a [])
  | a :: first, b :: second => by
      obtain ⟨common, lengthEq⟩ := longestCommonPrefix_take first second
      unfold commonPrefixLength
      split
      · rename_i same
        subst same
        rw [List.take_succ_cons, List.length_cons, lengthEq]
        exact ⟨common.cons a, rfl⟩
      · rename_i different
        refine ⟨longestCommonPrefix_nil fun c beginsFirst beginsSecond => different ?_, rfl⟩
        exact (List.cons_prefix_cons.mp beginsFirst).1.symm.trans
          (List.cons_prefix_cons.mp beginsSecond).1

theorem exists_longestCommonPrefix (first second : List α) :
    ∃ start firstRest secondRest, first = start ++ firstRest ∧ second = start ++ secondRest ∧
      start.length = commonPrefixLength first second ∧
      LongestCommonPrefix start first second := by
  obtain ⟨common, lengthEq⟩ := longestCommonPrefix_take first second
  obtain ⟨firstRest, firstEq⟩ := common.ofFirst
  obtain ⟨secondRest, secondEq⟩ := common.ofSecond
  exact ⟨_, firstRest, secondRest, firstEq.symm, secondEq.symm, lengthEq, common⟩

theorem exists_longestCommonSuffix (first second : List α) :
    ∃ ending firstMid secondMid, first = firstMid ++ ending ∧ second = secondMid ++ ending ∧
      ending.length = commonPrefixLength first.reverse second.reverse ∧
      LongestCommonSuffix ending first second := by
  obtain ⟨start, firstRest, secondRest, firstEq, secondEq, lengthEq, common⟩ :=
    exists_longestCommonPrefix first.reverse second.reverse
  refine ⟨start.reverse, firstRest.reverse, secondRest.reverse, ?_, ?_, ?_, common.reverse⟩
  · rw [← List.reverse_append, ← firstEq, List.reverse_reverse]
  · rw [← List.reverse_append, ← secondEq, List.reverse_reverse]
  · rw [List.length_reverse, lengthEq]

end

/-! ## Spans -/

/-- The two texts agree outside a span.  Nothing more can be cut off in front of it,
and then nothing more behind it. -/
structure TightSpan (oldText newText start oldMid newMid ending : List α) : Prop where
  old : oldText = start ++ (oldMid ++ ending)
  new : newText = start ++ (newMid ++ ending)
  inFront : LongestCommonPrefix start oldText newText
  behind : LongestCommonSuffix ending (oldMid ++ ending) (newMid ++ ending)

/-- A common suffix that reaches into neither cut is in the one behind the span. -/
theorem TightSpan.length_le {oldText newText start oldMid newMid ending other : List α}
    (tight : TightSpan oldText newText start oldMid newMid ending)
    (inOld : other <:+ oldText) (inNew : other <:+ newText)
    (oldShort : other.length ≤ (oldMid ++ ending).length)
    (newShort : other.length ≤ (newMid ++ ending).length) : other.length ≤ ending.length := by
  have oldRest : oldMid ++ ending <:+ oldText := tight.old ▸ List.suffix_append start _
  have newRest : newMid ++ ending <:+ newText := tight.new ▸ List.suffix_append start _
  exact tight.behind.longest other (List.suffix_of_suffix_length_le inOld oldRest oldShort)
    (List.suffix_of_suffix_length_le inNew newRest newShort)

/-- No other span that the texts agree outside of is shorter, in the one text or in
the other. -/
theorem TightSpan.minimal {oldText newText start oldMid newMid ending : List α}
    (tight : TightSpan oldText newText start oldMid newMid ending)
    {before oldSpan newSpan after : List α} (old : oldText = before ++ (oldSpan ++ after))
    (new : newText = before ++ (newSpan ++ after)) :
    oldMid.length ≤ oldSpan.length ∧ newMid.length ≤ newSpan.length := by
  have shorter : before.length ≤ start.length :=
    tight.inFront.longest before ⟨_, old.symm⟩ ⟨_, new.symm⟩
  have oldLength := congrArg List.length (tight.old.symm.trans old)
  have newLength := congrArg List.length (tight.new.symm.trans new)
  -- As much of the other suffix as does not reach into the cut in front.
  obtain ⟨other, otherEq⟩ : ∃ other, other = after.drop (after.length -
    min (oldMid ++ ending).length (newMid ++ ending).length) := ⟨_, rfl⟩
  have inAfter : other <:+ after := otherEq ▸ List.drop_suffix _ _
  have inOld : other <:+ oldText :=
    inAfter.trans ⟨before ++ oldSpan, by rw [old, List.append_assoc]⟩
  have inNew : other <:+ newText :=
    inAfter.trans ⟨before ++ newSpan, by rw [new, List.append_assoc]⟩
  have otherLength := congrArg List.length otherEq
  have bounded := tight.length_le inOld inNew
  simp only [List.length_append, List.length_drop] at oldLength newLength otherLength bounded
  omega

/-! ## Operations -/

/-- The operations that replace a span: at most one deletion and one insertion, both
where the span begins. -/
def replaceSpan (pos : Nat) (oldMid newMid : List α) : List (DocOp α) :=
  (if oldMid.isEmpty then [] else [.delete pos oldMid.length]) ++
    (if newMid.isEmpty then [] else [.insert pos newMid])

/-- The operations replace the span, and each is within the text it is applied to. -/
theorem replaceSpan_spec (start oldMid newMid ending : List α) :
    applyAll (start ++ (oldMid ++ ending)) (replaceSpan start.length oldMid newMid) =
        start ++ (newMid ++ ending) ∧
      AllInBounds (start ++ (oldMid ++ ending)) (replaceSpan start.length oldMid newMid) := by
  have deletes : applyOp (start ++ (oldMid ++ ending)) (.delete start.length oldMid.length) =
      start ++ ending := applyOp_delete_at rfl rfl
  have inserts : applyOp (start ++ ending) (.insert start.length newMid) =
      start ++ (newMid ++ ending) := applyOp_insert_at newMid rfl
  have deleteIn : start.length + oldMid.length ≤ (start ++ (oldMid ++ ending)).length := by
    rw [List.length_append, List.length_append]
    omega
  have insertIn : start.length ≤ (start ++ ending).length := by
    rw [List.length_append]
    exact Nat.le_add_right _ _
  cases oldMid with
  | nil =>
      cases newMid with
      | nil => exact ⟨rfl, trivial⟩
      | cons b newMid => exact ⟨inserts, insertIn, trivial⟩
  | cons a oldMid =>
      cases newMid with
      | nil => exact ⟨deletes, deleteIn, trivial⟩
      | cons b newMid =>
          refine ⟨?_, deleteIn, ?_, trivial⟩
          · exact (congrArg (applyOp · _) deletes).trans inserts
          · rw [deletes]
            exact insertIn

/-! ## The scans by index -/

theorem getElem?_reverse_drop {text : List α} {i j : Nat} (within : j < text.length - i) :
    (text.drop i).reverse[j]? = text[text.length - 1 - j]? := by
  have inRest : j < (text.drop i).length := by rwa [List.length_drop]
  rw [List.getElem?_reverse inRest, List.getElem?_drop, List.length_drop]
  congr 1
  omega

theorem drop_take_append (start mid ending : List α) :
    ((start ++ (mid ++ ending)).take
      ((start ++ (mid ++ ending)).length - ending.length)).drop start.length = mid := by
  have lengthEq : (start ++ (mid ++ ending)).length - ending.length = (start ++ mid).length := by
    simp only [List.length_append]
    omega
  rw [lengthEq, ← List.append_assoc, List.take_left, List.drop_left]

section

variable [DecidableEq α]

/-- The first loop of `computeDelta`. -/
def prefixScan (oldText newText : List α) (i : Nat) : Nat :=
  if i < min oldText.length newText.length ∧ oldText[i]? = newText[i]? then
    prefixScan oldText newText (i + 1)
  else i
termination_by oldText.length - i

/-- The second loop of `computeDelta`. -/
def suffixScan (oldText newText : List α) (i j : Nat) : Nat :=
  if j < oldText.length - i ∧ j < newText.length - i ∧
      oldText[oldText.length - 1 - j]? = newText[newText.length - 1 - j]? then
    suffixScan oldText newText i (j + 1)
  else j
termination_by oldText.length - i - j

theorem prefixScan_eq (oldText newText : List α) (i : Nat) :
    prefixScan oldText newText i =
      i + commonPrefixLength (oldText.drop i) (newText.drop i) := by
  induction i using prefixScan.induct oldText newText with
  | case1 i more ih =>
      rw [prefixScan, if_pos more, ih]
      have inOld : i < oldText.length := by omega
      have inNew : i < newText.length := by omega
      have same : oldText[i] = newText[i] := by
        have found := more.2
        rwa [List.getElem?_eq_getElem inOld, List.getElem?_eq_getElem inNew,
          Option.some_inj] at found
      rw [List.drop_eq_getElem_cons inOld, List.drop_eq_getElem_cons inNew, commonPrefixLength,
        if_pos same]
      omega
  | case2 i past =>
      rw [prefixScan, if_neg past]
      rcases Nat.lt_or_ge i oldText.length with inOld | pastOld
      · rcases Nat.lt_or_ge i newText.length with inNew | pastNew
        · have different : oldText[i] ≠ newText[i] := by
            intro same
            refine past ⟨by omega, ?_⟩
            rw [List.getElem?_eq_getElem inOld, List.getElem?_eq_getElem inNew, same]
          rw [List.drop_eq_getElem_cons inOld, List.drop_eq_getElem_cons inNew,
            commonPrefixLength, if_neg different, Nat.add_zero]
        · rw [List.drop_of_length_le pastNew]
          cases oldText.drop i <;> rfl
      · rw [List.drop_of_length_le pastOld]
        rfl

/-- The second loop is the first on the reversed rests. -/
theorem suffixScan_eq_prefixScan (oldText newText : List α) (i j : Nat) :
    suffixScan oldText newText i j =
      prefixScan (oldText.drop i).reverse (newText.drop i).reverse j := by
  have goesOn : ∀ j, (j < oldText.length - i ∧ j < newText.length - i ∧
      oldText[oldText.length - 1 - j]? = newText[newText.length - 1 - j]?) ↔
        j < min (oldText.drop i).reverse.length (newText.drop i).reverse.length ∧
          (oldText.drop i).reverse[j]? = (newText.drop i).reverse[j]? := by
    intro j
    rw [List.length_reverse, List.length_reverse, List.length_drop, List.length_drop, lt_min_iff,
      and_assoc]
    refine and_congr_right fun inOld => and_congr_right fun inNew => ?_
    rw [getElem?_reverse_drop inOld, getElem?_reverse_drop inNew]
  induction j using suffixScan.induct oldText newText i with
  | case1 j more ih =>
      have further := (goesOn j).mp more
      rw [suffixScan, if_pos more, ih]
      conv_rhs => rw [prefixScan, if_pos further]
  | case2 j past =>
      rw [suffixScan, if_neg past, prefixScan, if_neg fun more => past ((goesOn j).mpr more)]

/-- `computeDelta` with its loops. -/
theorem computeDelta_eq_scan (oldText newText : List α) :
    computeDelta oldText newText =
      if oldText = newText then []
      else
        let i := prefixScan oldText newText 0
        let j := suffixScan oldText newText i 0
        replaceSpan i ((oldText.take (oldText.length - j)).drop i)
          ((newText.take (newText.length - j)).drop i) := by
  simp only [suffixScan_eq_prefixScan, prefixScan_eq, List.drop_zero, Nat.zero_add]
  rfl

/-! ## The delta -/

/-- The delta replaces a span that nothing more can be cut off. -/
theorem exists_tightSpan (oldText newText : List α) :
    ∃ start oldMid newMid ending, TightSpan oldText newText start oldMid newMid ending ∧
      computeDelta oldText newText = replaceSpan start.length oldMid newMid := by
  by_cases same : oldText = newText
  · subst same
    refine ⟨oldText, [], [], [], ⟨?_, ?_, longestCommonPrefix_self oldText,
      longestCommonSuffix_nil⟩, ?_⟩
    · simp
    · simp
    · rw [computeDelta, if_pos rfl]
      rfl
  · obtain ⟨start, oldRest, newRest, oldEq, newEq, startLength, inFront⟩ :=
      exists_longestCommonPrefix oldText newText
    obtain ⟨ending, oldMid, newMid, rfl, rfl, endingLength, behind⟩ :=
      exists_longestCommonSuffix oldRest newRest
    refine ⟨start, oldMid, newMid, ending, ⟨oldEq, newEq, inFront, behind⟩, ?_⟩
    have oldDrop : oldText.drop start.length = oldMid ++ ending := by rw [oldEq, List.drop_left]
    have newDrop : newText.drop start.length = newMid ++ ending := by rw [newEq, List.drop_left]
    rw [computeDelta, if_neg same]
    simp only [← startLength, oldDrop, newDrop, ← endingLength]
    rw [oldEq, newEq, drop_take_append, drop_take_append]
    rfl

/-- The operations lead from the one text to the other, each within the text it is
applied to. -/
theorem computeDelta_spec (oldText newText : List α) :
    applyAll oldText (computeDelta oldText newText) = newText ∧
      AllInBounds oldText (computeDelta oldText newText) := by
  obtain ⟨start, oldMid, newMid, ending, tight, deltaEq⟩ := exists_tightSpan oldText newText
  have replaced := replaceSpan_spec start oldMid newMid ending
  rwa [← tight.old, ← tight.new, ← deltaEq] at replaced

/-- `computeDelta` is exact, and minimal in span: its operations lead from the one
text to the other, each within the text it is applied to.  They replace what is left
when the longest common prefix and then the longest common suffix of the rests are
cut off, by at most one deletion and one insertion at one position, and no other span
outside of which the texts agree is shorter.  There are none for equal texts only. -/
theorem computeDelta_exact (oldText newText : List α) :
    applyAll oldText (computeDelta oldText newText) = newText ∧
      AllInBounds oldText (computeDelta oldText newText) ∧
      (computeDelta oldText newText = [] ↔ oldText = newText) ∧
      ∃ start oldMid newMid ending,
        oldText = start ++ (oldMid ++ ending) ∧ newText = start ++ (newMid ++ ending) ∧
        LongestCommonPrefix start oldText newText ∧
        LongestCommonSuffix ending (oldMid ++ ending) (newMid ++ ending) ∧
        computeDelta oldText newText = replaceSpan start.length oldMid newMid ∧
        ∀ before oldSpan newSpan after, oldText = before ++ (oldSpan ++ after) →
          newText = before ++ (newSpan ++ after) →
            oldMid.length ≤ oldSpan.length ∧ newMid.length ≤ newSpan.length := by
  obtain ⟨start, oldMid, newMid, ending, tight, deltaEq⟩ := exists_tightSpan oldText newText
  obtain ⟨leads, within⟩ := computeDelta_spec oldText newText
  refine ⟨leads, within, ?_, start, oldMid, newMid, ending, tight.old, tight.new, tight.inFront,
    tight.behind, deltaEq, fun _ _ _ _ old new => tight.minimal old new⟩
  constructor
  · intro nothing
    rw [nothing] at leads
    exact leads
  · intro same
    rw [computeDelta, if_pos same]

end

namespace Editor

/-! ## Input -/

theorem fullText_enqueue (s : Editor α) (op : DocOp α) :
    (s.enqueue op).fullText = applyOp s.fullText op := by
  simp [fullText, enqueue, List.foldl_append]

theorem fullText_foldl_enqueue (s : Editor α) (ops : List (DocOp α)) :
    (ops.foldl enqueue s).fullText = applyAll s.fullText ops := by
  induction ops generalizing s with
  | nil => rfl
  | cons op ops ih =>
      rw [List.foldl_cons, ih, fullText_enqueue]
      rfl

theorem fullText_sendPendingFront (s : Editor α) :
    s.sendPendingFront.1.fullText = s.fullText := by
  unfold sendPendingFront
  split <;> rfl

/-- The view after an input is the input. -/
theorem fullText_onInput [DecidableEq α] {s : Editor α} (connected : s.connected = true)
    (cur : List α) : (s.onInput cur).1.fullText = cur := by
  obtain ⟨leads, -⟩ := computeDelta_spec s.fullText cur
  unfold onInput
  simp only [connected, Bool.not_true, Bool.false_eq_true, if_false]
  split
  · rename_i same
    exact same.symm
  · rw [fullText_sendPendingFront, fullText_foldl_enqueue, leads]

end Editor

end DoomDraft.Browser
