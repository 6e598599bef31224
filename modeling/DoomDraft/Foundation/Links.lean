import Mathlib.Data.List.Basic
import Mathlib.Logic.Function.Basic

/-!
# Linked lists over one array of links

A cell holds the link to the cell behind it.  Several lists share the cells: each has
a head, and no cell is on two of them.  A cell is changed by the list it is on only, so
an operation on one list leaves the others as they are.
-/

namespace DoomDraft.Links

universe u v

variable {α : Type u} {ι : Type v}

/-- The links from `a` lead through the cells of the list and then to `b`. -/
def Path (next : α → α) (a : α) : List α → α → Prop
  | [], b => a = b
  | x :: rest, b => a = x ∧ Path next (next x) rest b

variable {next next' : α → α} {a b stop : α} {l l' : List α}

theorem Path.congr (path : Path next a l b) (agree : ∀ x ∈ l, next' x = next x) :
    Path next' a l b := by
  induction l generalizing a with
  | nil => exact path
  | cons x rest ih =>
      rw [List.forall_mem_cons] at agree
      refine ⟨path.1, ?_⟩
      rw [agree.1]
      exact ih path.2 agree.2

theorem path_append : Path next a (l ++ l') b ↔ ∃ c, Path next a l c ∧ Path next c l' b := by
  induction l generalizing a with
  | nil => simp [Path]
  | cons x rest ih => simp only [List.cons_append, Path, ih, and_assoc, exists_and_left]

/-- Where a list that ends at `stop` begins. -/
theorem Path.head_eq (path : Path next a l b) : a = l.headD b := by
  cases l with
  | nil => exact path
  | cons x rest => exact path.1

section Update

variable [DecidableEq α]

theorem Path.update {x c : α} (path : Path next a l b) (away : x ∉ l) :
    Path (Function.update next x c) a l b := by
  apply path.congr
  intro y member
  have other : y ≠ x := by
    rintro rfl
    exact away member
  exact Function.update_of_ne other _ _

/-- The last link of a list may be written. -/
theorem Path.update_last {x c : α} (path : Path next a (l ++ [x]) b) (away : x ∉ l) :
    Path (Function.update next x c) a (l ++ [x]) c := by
  rw [path_append] at path ⊢
  obtain ⟨d, before, here⟩ := path
  exact ⟨d, before.update away, here.1, Function.update_self _ _ _⟩

end Update

/-! ## Several lists -/

/-- Lists that share the cells, none of which is on two of them. -/
structure Chains (next : α → α) (stop : α) (head : ι → α) (lists : ι → List α) : Prop where
  path : ∀ i, Path next (head i) (lists i) stop
  nodup : ∀ i, (lists i).Nodup
  disjoint : ∀ i j x, x ∈ lists i → x ∈ lists j → i = j
  proper : ∀ i, stop ∉ lists i

namespace Chains

variable {head : ι → α} {lists : ι → List α}

theorem head_eq (chains : Chains next stop head lists) (i : ι) :
    head i = (lists i).headD stop :=
  (chains.path i).head_eq

theorem head_eq_stop_iff (chains : Chains next stop head lists) (i : ι) :
    head i = stop ↔ lists i = [] := by
  have begins := chains.head_eq i
  cases shape : lists i with
  | nil => simpa only [shape, List.headD_nil, iff_true] using begins
  | cons x rest =>
      rw [shape, List.headD_cons] at begins
      have other : x ≠ stop := by
        rintro rfl
        exact chains.proper i (shape ▸ List.mem_cons_self)
      simp only [begins, other, reduceCtorEq]

variable [DecidableEq ι]

/-- The first cell of a list is taken off. -/
theorem dropFirst (chains : Chains next stop head lists) {i : ι} {x : α} {rest : List α}
    (shape : lists i = x :: rest) :
    Chains next stop (Function.update head i (next x)) (Function.update lists i rest) := by
  have sub : ∀ j, (Function.update lists i rest j).Sublist (lists j) := by
    intro j
    by_cases same : j = i
    · subst same
      rw [Function.update_self, shape]
      exact List.sublist_cons_self x rest
    · rw [Function.update_of_ne same]
  refine ⟨fun j => ?_, fun j => (chains.nodup j).sublist (sub j), fun j k y inJ inK => ?_,
    fun j member => chains.proper j ((sub j).subset member)⟩
  · by_cases same : j = i
    · subst same
      have whole := chains.path j
      rw [shape] at whole
      rw [Function.update_self, Function.update_self]
      exact whole.2
    · rw [Function.update_of_ne same, Function.update_of_ne same]
      exact chains.path j
  · exact chains.disjoint j k y ((sub j).subset inJ) ((sub k).subset inK)

/-- The cell taken off is on no list. -/
theorem dropFirst_notMem (chains : Chains next stop head lists) {i : ι} {x : α} {rest : List α}
    (shape : lists i = x :: rest) (j : ι) : x ∉ Function.update lists i rest j := by
  have member : x ∈ lists i := shape ▸ List.mem_cons_self
  by_cases same : j = i
  · subst same
    rw [Function.update_self]
    have distinct := chains.nodup j
    rw [shape] at distinct
    exact (List.nodup_cons.mp distinct).1
  · rw [Function.update_of_ne same]
    exact fun other => same (chains.disjoint j i x other member)

/-- One list is replaced, and no cell of another list is written. -/
theorem replace (chains : Chains next stop head lists) {i : ι} {first : α} {cells : List α}
    (path : Path next' first cells stop) (distinct : cells.Nodup) (proper : stop ∉ cells)
    (apart : ∀ j ≠ i, ∀ x ∈ cells, x ∉ lists j)
    (frame : ∀ j ≠ i, ∀ x ∈ lists j, next' x = next x) :
    Chains next' stop (Function.update head i first) (Function.update lists i cells) := by
  constructor
  · intro j
    by_cases same : j = i
    · subst same
      rw [Function.update_self, Function.update_self]
      exact path
    · rw [Function.update_of_ne same, Function.update_of_ne same]
      exact (chains.path j).congr (frame j same)
  · intro j
    by_cases same : j = i
    · subst same
      rw [Function.update_self]
      exact distinct
    · rw [Function.update_of_ne same]
      exact chains.nodup j
  · intro j k x inJ inK
    by_cases sameJ : j = i
    · by_cases sameK : k = i
      · exact sameJ.trans sameK.symm
      · rw [sameJ, Function.update_self] at inJ
        rw [Function.update_of_ne sameK] at inK
        exact absurd inK (apart k sameK x inJ)
    · rw [Function.update_of_ne sameJ] at inJ
      by_cases sameK : k = i
      · rw [sameK, Function.update_self] at inK
        exact absurd inJ (apart j sameJ x inK)
      · rw [Function.update_of_ne sameK] at inK
        exact chains.disjoint j k x inJ inK
  · intro j
    by_cases same : j = i
    · subst same
      rw [Function.update_self]
      exact proper
    · rw [Function.update_of_ne same]
      exact chains.proper j

variable [DecidableEq α]

/-- A cell that is on no list becomes the first of one. -/
theorem pushFirst (chains : Chains next stop head lists) (i : ι) {x : α}
    (away : ∀ j, x ∉ lists j) (proper : x ≠ stop) :
    Chains (Function.update next x (head i)) stop (Function.update head i x)
      (Function.update lists i (x :: lists i)) := by
  apply chains.replace
  · refine ⟨rfl, ?_⟩
    rw [Function.update_self]
    exact (chains.path i).update (away i)
  · exact List.nodup_cons.mpr ⟨away i, chains.nodup i⟩
  · rw [List.mem_cons, not_or]
    exact ⟨proper.symm, chains.proper i⟩
  · intro j other y member
    rcases List.mem_cons.mp member with rfl | member
    · exact away j
    · exact fun there => other (chains.disjoint j i y there member)
  · intro j _ y member
    have other : y ≠ x := by
      rintro rfl
      exact away j member
    exact Function.update_of_ne other _ _

/-- A cell that is on no list becomes the only one of an empty list. -/
theorem pushOnly (chains : Chains next stop head lists) {i : ι} {x : α} (empty : lists i = [])
    (away : ∀ j, x ∉ lists j) (proper : x ≠ stop) :
    Chains (Function.update next x stop) stop (Function.update head i x)
      (Function.update lists i [x]) := by
  have pushed := chains.pushFirst i away proper
  rwa [(chains.head_eq_stop_iff i).mpr empty, empty] at pushed

/-- A cell that is on no list is written behind the last cell of one. -/
theorem pushLast (chains : Chains next stop head lists) {i : ι} {x last : α} {before : List α}
    (shape : lists i = before ++ [last]) (away : ∀ j, x ∉ lists j) (proper : x ≠ stop) :
    Chains (Function.update (Function.update next x stop) last x) stop head
      (Function.update lists i (lists i ++ [x])) := by
  have member : last ∈ lists i := by simp [shape]
  have other : x ≠ last := fun same => away i (same ▸ member)
  have replaced : Chains (Function.update (Function.update next x stop) last x) stop
      (Function.update head i (head i)) (Function.update lists i (lists i ++ [x])) := by
    apply chains.replace
    · rw [path_append]
      refine ⟨x, ?_, rfl, ?_⟩
      · have path := (chains.path i).update (c := stop) (away i)
        have distinct := chains.nodup i
        rw [shape] at path distinct ⊢
        have notBefore : last ∉ before := fun inside =>
          (List.nodup_append.mp distinct).2.2 last inside last List.mem_cons_self rfl
        exact path.update_last notBefore
      · rw [Function.update_of_ne other, Function.update_self]
        rfl
    · rw [List.nodup_append]
      refine ⟨chains.nodup i, by simp, ?_⟩
      rintro y inside z here rfl
      exact away i (List.mem_singleton.mp here ▸ inside)
    · rw [List.mem_append, List.mem_singleton, not_or]
      exact ⟨chains.proper i, proper.symm⟩
    · intro j different y inside
      rcases List.mem_append.mp inside with inside | here
      · exact fun there => different (chains.disjoint j i y there inside)
      · rw [List.mem_singleton.mp here]
        exact away j
    · intro j different y inside
      have notLast : y ≠ last := fun same =>
        different (chains.disjoint j i last (same ▸ inside) member)
      have notNew : y ≠ x := fun same => away j (same ▸ inside)
      rw [Function.update_of_ne notLast, Function.update_of_ne notNew]
  rwa [Function.update_eq_self] at replaced

end Chains

end DoomDraft.Links
