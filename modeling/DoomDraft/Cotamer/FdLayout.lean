import DoomDraft.Cotamer.FdRegistry

/-!
# The layout of an event set

How the links of an event set spell the queues: each list that the set keeps is a chain
through the records, no record is on two of them, and what the records of a chain hold is
the queue of its descriptor.  The loops that follow or rebuild a chain are read here.
-/

namespace DoomDraft.Cotamer

open Links

universe u v

/-- The lists that share the records: the queues of the descriptors, the list that has
been taken, and the free list. -/
inductive Home
  | fd (ufd : Nat)
  | taken
  | free
deriving DecidableEq

variable {β : Type u} {ε : Type v}

/-- What a record of a queue holds. -/
def WatchRec.held (record : WatchRec ε) : Option (Watch ε) :=
  record.ev.map fun event => ⟨event, record.mask⟩

namespace FdEventSet

/-- The links of a vector of records. -/
def links (ws : Nat → WatchRec ε) (wix : Nat) : Nat := (ws wix).wlink

/-- The record of a descriptor, which is a fresh one beyond the capacity. -/
def fdr (self : FdEventSet β ε) (ufd : Nat) : FdRec β :=
  if ufd < self.fdrCapacity then self.fdrs ufd else {}

/-- Where the lists begin, when the list that has been taken begins at `root`. -/
def heads (self : FdEventSet β ε) (root : Nat) : Home → Nat
  | .fd ufd => (self.fdr ufd).whead
  | .taken => root
  | .free => self.freeWlink

theorem fdr_of_lt {self : FdEventSet β ε} {ufd : Nat} (inside : ufd < self.fdrCapacity) :
    self.fdr ufd = self.fdrs ufd :=
  if_pos inside

theorem fdr_of_le {self : FdEventSet β ε} {ufd : Nat} (outside : self.fdrCapacity ≤ ufd) :
    self.fdr ufd = {} :=
  if_neg (Nat.not_lt.mpr outside)

/-! ## Records -/

@[simp]
theorem links_writeLink (ws : Nat → WatchRec ε) (wix link : Nat) :
    links (writeLink ws wix link) = Function.update (links ws) wix link := by
  funext x
  by_cases same : x = wix
  · subst same
    simp [links, writeLink]
  · simp [links, writeLink, same]

@[simp]
theorem writeLink_of_ne {ws : Nat → WatchRec ε} {wix link x : Nat} (other : x ≠ wix) :
    writeLink ws wix link x = ws x :=
  Function.update_of_ne other _ _

theorem writeLink_held (ws : Nat → WatchRec ε) (wix link x : Nat) :
    (writeLink ws wix link x).held = (ws x).held := by
  by_cases same : x = wix
  · subst same
    simp [writeLink, WatchRec.held]
  · rw [writeLink_of_ne same]

theorem links_update (ws : Nat → WatchRec ε) (wix : Nat) (record : WatchRec ε) :
    links (Function.update ws wix record) = Function.update (links ws) wix record.wlink := by
  funext x
  by_cases same : x = wix
  · subst same
    simp [links]
  · simp [links, same]

/-! ## Following a list -/

/-- The events that the watches of a chain want. -/
theorem maskLoop_eq (isEmpty : ε → Bool) {ws : Nat → WatchRec ε} {fuel wix : Nat}
    {cells : List Nat} {watches : List (Watch ε)} (path : Path (links ws) wix cells linkClean)
    (proper : linkClean ∉ cells) (enough : cells.length ≤ fuel)
    (hold : cells.map (fun x => (ws x).held) = watches.map some) (mask : FdEvent) :
    maskLoop isEmpty ws fuel wix mask =
      some (watches.foldl
        (fun mask watch => if isEmpty watch.event then mask else mask ||| watch.mask) mask) := by
  induction cells generalizing fuel wix watches mask with
  | nil =>
      obtain rfl : wix = linkClean := path
      cases watches with
      | cons _ _ => cases hold
      | nil =>
          unfold maskLoop
          rw [if_pos rfl, List.foldl_nil]
  | cons x rest ih =>
      obtain ⟨rfl, path⟩ := path
      rw [List.mem_cons, not_or] at proper
      cases watches with
      | nil => cases hold
      | cons watch watches =>
          rw [List.map_cons, List.map_cons, List.cons.injEq] at hold
          cases fuel with
          | zero => simp at enough
          | succ fuel =>
              have continued := ih path proper.2 (Nat.le_of_succ_le_succ enough) hold.2
              obtain ⟨event, held, same⟩ := Option.map_eq_some_iff.mp hold.1
              unfold maskLoop
              simp only [Ne.symm proper.1, if_false, List.foldl_cons]
              rw [← same]
              simp only [held, Option.all_some]
              exact continued _

/-! ## Rebuilding a list -/

namespace Taking

/-- What a pointer points to. -/
def load (self : Taking ε) : Place → Nat
  | .taken => self.whead
  | .kept => self.fdWhead
  | .wlink wix => links self.ws wix

/-- A pointer is where the next link of a growing list is to be written: at its base while
it is empty, else in its last record. -/
def Ends (self : Taking ε) (base place : Place) (cells : List Nat) : Prop :=
  (cells = [] ∧ place = base) ∨
    ∃ before last c, cells = before ++ [last] ∧ last ∉ before ∧ place = .wlink last ∧
      Path (links self.ws) (self.load base) cells c

variable {self : Taking ε} {base place : Place} {cells : List Nat}

@[simp]
theorem store_wpprev (place : Place) (link : Nat) :
    (self.store place link).wpprev = self.wpprev := by
  cases place <;> rfl

@[simp]
theorem store_fdpprev (place : Place) (link : Nat) :
    (self.store place link).fdpprev = self.fdpprev := by
  cases place <;> rfl

@[simp]
theorem store_wtail (place : Place) (link : Nat) :
    (self.store place link).wtail = self.wtail := by
  cases place <;> rfl

theorem store_ws_of_notMem {x : Nat} (ends : self.Ends base place cells)
    (isLocal : base = .taken ∨ base = .kept) (away : x ∉ cells) (link : Nat) :
    (self.store place link).ws x = self.ws x := by
  rcases ends with ⟨-, rfl⟩ | ⟨before, last, c, rfl, -, rfl, -⟩
  · rcases isLocal with rfl | rfl <;> rfl
  · have other : x ≠ last := by
      rintro rfl
      simp at away
    exact writeLink_of_ne other

theorem store_held (place : Place) (link x : Nat) :
    ((self.store place link).ws x).held = (self.ws x).held := by
  cases place with
  | taken => rfl
  | kept => rfl
  | wlink wix => exact writeLink_held self.ws wix link x

/-- A write at the end of a growing list makes the list lead to the link. -/
theorem Ends.store (ends : self.Ends base place cells) (isLocal : base = .taken ∨ base = .kept)
    (link : Nat) :
    Path (links (self.store place link).ws) ((self.store place link).load base) cells link := by
  rcases ends with ⟨rfl, rfl⟩ | ⟨before, last, c, rfl, fresh, rfl, path⟩
  · rcases isLocal with rfl | rfl <;> rfl
  · have same : (self.store (.wlink last) link).load base = self.load base := by
      rcases isLocal with rfl | rfl <;> rfl
    rw [same]
    simp only [Taking.store, links_writeLink]
    exact path.update_last fresh

/-- A write at the end of one growing list leaves another one as it is. -/
theorem Ends.store_other {base' place' : Place} {cells' : List Nat}
    (ends : self.Ends base place cells) (other : self.Ends base' place' cells')
    (isLocal : base = .taken ∧ base' = .kept ∨ base = .kept ∧ base' = .taken)
    (apart : ∀ x ∈ cells', x ∉ cells) (link : Nat) :
    (self.store place link).Ends base' place' cells' := by
  rcases other with empty | ⟨before, last, c, shape, fresh, atLast, path⟩
  · exact Or.inl empty
  · right
    refine ⟨before, last, c, shape, fresh, atLast, ?_⟩
    have same : (self.store place link).load base' = self.load base' := by
      rcases ends with ⟨-, rfl⟩ | ⟨_, _, _, -, -, rfl, -⟩
      · rcases isLocal with ⟨rfl, rfl⟩ | ⟨rfl, rfl⟩ <;> rfl
      · rcases isLocal with ⟨rfl, rfl⟩ | ⟨rfl, rfl⟩ <;> rfl
    rw [same]
    apply path.congr
    intro x member
    have kept := store_ws_of_notMem ends (isLocal.imp And.left And.left) (apart x member) link
    exact congrArg WatchRec.wlink kept

/-- A growing list grows by a cell whose link is written at its end. -/
theorem Ends.grow {grown : Taking ε} (ends : self.Ends base place cells)
    (isLocal : base = .taken ∨ base = .kept) {x : Nat} (fresh : x ∉ cells)
    (sameWs : grown.ws = (self.store place x).ws)
    (sameLoad : grown.load base = (self.store place x).load base) :
    grown.Ends base (.wlink x) (cells ++ [x]) := by
  right
  refine ⟨cells, x, links grown.ws x, rfl, fresh, rfl, ?_⟩
  rw [path_append]
  refine ⟨x, ?_, rfl, rfl⟩
  rw [sameWs, sameLoad]
  exact ends.store isLocal x

theorem Ends.congr {other : Taking ε} (ends : self.Ends base place cells)
    (sameWs : other.ws = self.ws) (sameLoad : other.load base = self.load base) :
    other.Ends base place cells := by
  unfold Ends
  rw [sameWs, sameLoad]
  exact ends

end Taking

/-- What the loop of `take_watch_list` has done when it has sorted some cells into those
that it takes and those that it keeps. -/
structure Progress (ws : Nat → WatchRec ε) (state : Taking ε) (taken kept : List Nat) : Prop where
  takenEnds : state.Ends .taken state.wpprev taken
  keptEnds : state.Ends .kept state.fdpprev kept
  tail : ∀ before last, kept = before ++ [last] → state.wtail = last
  held : ∀ x, (state.ws x).held = (ws x).held
  frame : ∀ x, x ∉ taken → x ∉ kept → state.ws x = ws x

/-- The test of the loop of `take_watch_list`. -/
def picks (isEmpty : ε → Bool) (imask : FdEvent) (record : WatchRec ε) : Bool :=
  imask &&& record.mask ≠ 0 ∨ record.ev.all isEmpty

namespace Progress

variable {ws : Nat → WatchRec ε} {state : Taking ε} {taken kept : List Nat} {x : Nat}

/-- A cell is taken. -/
theorem take (progress : Progress ws state taken kept) (apart : ∀ y ∈ kept, y ∉ taken)
    (notTaken : x ∉ taken) :
    Progress ws { state.store state.wpprev x with wpprev := .wlink x } (taken ++ [x]) kept := by
  have untouched := progress.takenEnds.store_other progress.keptEnds (Or.inl ⟨rfl, rfl⟩) apart x
  constructor
  · exact progress.takenEnds.grow (Or.inl rfl) notTaken rfl rfl
  · simp only [Taking.store_fdpprev]
    exact untouched.congr rfl rfl
  · intro before last shape
    simp only [Taking.store_wtail]
    exact progress.tail before last shape
  · intro y
    exact (Taking.store_held _ _ _).trans (progress.held y)
  · intro y outside notKept
    rw [List.mem_append, not_or] at outside
    have same := Taking.store_ws_of_notMem progress.takenEnds (Or.inl rfl) outside.1 x
    exact same.trans (progress.frame y outside.1 notKept)

/-- A cell is kept. -/
theorem keep (progress : Progress ws state taken kept) (apart : ∀ y ∈ taken, y ∉ kept)
    (notKept : x ∉ kept) :
    Progress ws { state.store state.fdpprev x with wtail := x, fdpprev := .wlink x } taken
      (kept ++ [x]) := by
  have untouched := progress.keptEnds.store_other progress.takenEnds (Or.inr ⟨rfl, rfl⟩) apart x
  constructor
  · simp only [Taking.store_wpprev]
    exact untouched.congr rfl rfl
  · exact progress.keptEnds.grow (Or.inr rfl) notKept rfl rfl
  · intro before last shape
    have same := (List.append_inj' shape rfl).2
    exact (List.cons.inj same).1
  · intro y
    exact (Taking.store_held _ _ _).trans (progress.held y)
  · intro y notTaken outside
    rw [List.mem_append, not_or] at outside
    have same := Taking.store_ws_of_notMem progress.keptEnds (Or.inr rfl) outside.1 x
    exact same.trans (progress.frame y notTaken outside.1)

end Progress

/-- Before the loop nothing is sorted. -/
theorem progress_start (ws : Nat → WatchRec ε) (fdWhead : Nat) :
    Progress ws ⟨linkClean, fdWhead, linkClean, ws, .taken, .kept⟩ [] [] where
  takenEnds := Or.inl ⟨rfl, rfl⟩
  keptEnds := Or.inl ⟨rfl, rfl⟩
  tail before last shape := by simp at shape
  held _ := rfl
  frame _ _ _ := rfl

/-- The two writes behind the loop end both lists. -/
theorem Progress.finish {ws : Nat → WatchRec ε} {state : Taking ε} {taken kept : List Nat}
    (progress : Progress ws state taken kept) (apart : ∀ x ∈ taken, x ∉ kept)
    {ended : Taking ε}
    (finished : ended = (state.store state.fdpprev linkClean).store state.wpprev linkClean) :
    Path (links ended.ws) ended.whead taken linkClean ∧
      Path (links ended.ws) ended.fdWhead kept linkClean ∧
      (∀ x, (ended.ws x).held = (ws x).held) ∧
      (∀ x, x ∉ taken → x ∉ kept → ended.ws x = ws x) ∧
      ended.wtail = state.wtail := by
  obtain rfl := finished
  have keptPath := progress.keptEnds.store (Or.inr rfl) linkClean
  have takenEnds := progress.keptEnds.store_other progress.takenEnds (Or.inr ⟨rfl, rfl⟩) apart
    linkClean
  have unread : ∀ x ∈ kept, links ((state.store state.fdpprev linkClean).store state.wpprev
      linkClean).ws x = links (state.store state.fdpprev linkClean).ws x := by
    intro x member
    have notTaken : x ∉ taken := fun there => apart x there member
    exact congrArg WatchRec.wlink
      (Taking.store_ws_of_notMem takenEnds (Or.inl rfl) notTaken linkClean)
  refine ⟨takenEnds.store (Or.inl rfl) linkClean, ?_, fun x => ?_, fun x notTaken notKept => ?_,
    by simp⟩
  · have sameLoad : ((state.store state.fdpprev linkClean).store state.wpprev linkClean).fdWhead =
        (state.store state.fdpprev linkClean).fdWhead := by
      rcases takenEnds with ⟨-, base⟩ | ⟨_, _, _, -, -, base, -⟩ <;> rw [base] <;> rfl
    rw [sameLoad]
    exact keptPath.congr unread
  · exact (Taking.store_held _ _ x).trans ((Taking.store_held _ _ x).trans (progress.held x))
  · calc
      _ = (state.store state.fdpprev linkClean).ws x :=
        Taking.store_ws_of_notMem takenEnds (Or.inl rfl) notTaken linkClean
      _ = state.ws x := Taking.store_ws_of_notMem progress.keptEnds (Or.inr rfl) notKept linkClean
      _ = ws x := progress.frame x notTaken notKept

/-- The loop of `take_watch_list` sorts the cells by its test and keeps their order. -/
theorem exists_takeLoop (isEmpty : ε → Bool) (imask : FdEvent) {ws : Nat → WatchRec ε}
    {fuel wix : Nat} {cells taken kept : List Nat} {state : Taking ε}
    (progress : Progress ws state taken kept) (path : Path (links ws) wix cells linkClean)
    (proper : linkClean ∉ cells) (distinct : (taken ++ kept ++ cells).Nodup)
    (enough : cells.length ≤ fuel) :
    ∃ ended, takeLoop isEmpty imask fuel wix state = some ended ∧
      Progress ws ended (taken ++ cells.filter fun x => picks isEmpty imask (ws x))
        (kept ++ cells.filter fun x => !picks isEmpty imask (ws x)) := by
  induction cells generalizing fuel wix taken kept state with
  | nil =>
      obtain rfl : wix = linkClean := path
      refine ⟨state, ?_, by simpa using progress⟩
      unfold takeLoop
      exact if_pos rfl
  | cons x rest ih =>
      obtain ⟨rfl, path⟩ := path
      rw [List.mem_cons, not_or] at proper
      simp only [List.nodup_append, List.nodup_cons, List.mem_append] at distinct
      obtain ⟨⟨nodupTaken, nodupKept, apart⟩, ⟨notRest, nodupRest⟩, outside⟩ := distinct
      have notTaken : wix ∉ taken := fun there => outside wix (Or.inl there) wix (by simp) rfl
      have notKept : wix ∉ kept := fun there => outside wix (Or.inr there) wix (by simp) rfl
      have unread : state.ws wix = ws wix := progress.frame wix notTaken notKept
      cases fuel with
      | zero => simp at enough
      | succ fuel =>
          have less := Nat.le_of_succ_le_succ enough
          by_cases picked : picks isEmpty imask (ws wix) = true
          · have next := progress.take
              (fun y inKept inTaken => apart y inTaken y inKept rfl) notTaken
            obtain ⟨ended, run, done⟩ := ih next path proper.2 (by
              simp only [List.nodup_append, List.mem_append, List.mem_singleton]
              grind) less
            refine ⟨ended, ?_, by simpa [List.filter_cons, picked] using done⟩
            have test := of_decide_eq_true picked
            unfold takeLoop
            simp only [Ne.symm proper.1, if_false, unread, test, if_true]
            exact run
          · have next := progress.keep
              (fun y inTaken inKept => apart y inTaken y inKept rfl) notKept
            obtain ⟨ended, run, done⟩ := ih next path proper.2 (by
              simp only [List.nodup_append, List.mem_append, List.mem_singleton]
              grind) less
            refine ⟨ended, ?_, by simpa [List.filter_cons, picked] using done⟩
            have test := of_decide_eq_false (Bool.not_eq_true _ ▸ picked)
            unfold takeLoop
            simp only [Ne.symm proper.1, if_false, unread, test]
            exact run

/-- The cells that are picked hold the watches that are concerned. -/
theorem held_filter (isEmpty : ε → Bool) (imask : FdEvent) {ws : Nat → WatchRec ε}
    {cells : List Nat} {watches : List (Watch ε)}
    (hold : cells.map (fun x => (ws x).held) = watches.map some) (kept : Bool) :
    (cells.filter fun x => picks isEmpty imask (ws x) != kept).map (fun x => (ws x).held) =
      (watches.filter fun watch => watch.concerned isEmpty imask != kept).map some := by
  induction cells generalizing watches with
  | nil =>
      cases watches with
      | nil => rfl
      | cons _ _ => cases hold
  | cons x rest ih =>
      cases watches with
      | nil => cases hold
      | cons watch watches =>
          rw [List.map_cons, List.map_cons, List.cons.injEq] at hold
          obtain ⟨event, has, same⟩ := Option.map_eq_some_iff.mp hold.1
          have alike : picks isEmpty imask (ws x) = watch.concerned isEmpty imask := by
            rw [← same]
            simp [picks, Watch.concerned, has]
          simp only [List.filter_cons, alike]
          split
          · rw [List.map_cons, List.map_cons, ih hold.2, hold.1]
          · exact ih hold.2

end FdEventSet

end DoomDraft.Cotamer
