import DoomDraft.Cotamer.FdStorage
import DoomDraft.Foundation.Transition

/-!
# The event set keeps queues

Every call of the event set acts on the queues that it stores as the call of the queues
does, and answers the same.
-/

namespace DoomDraft.Cotamer

open Links

universe u v

variable {β : Type u} {ε : Type v}

namespace Registry

theorem contents_set (self : Registry β ε) (fd : Nat) (interest : Interest β ε) :
    (self.set fd interest).contents =
      Function.update self.contents (.fd fd) interest.watches := by
  funext home
  cases home with
  | fd n =>
      by_cases same : n = fd
      · subst same
        simp [contents, set]
      · simp [contents, set, same]
  | taken => rfl
  | free => rfl

theorem body_set (self : Registry β ε) (fd : Nat) (interest : Interest β ε) :
    (fun n => ((self.set fd interest).interest n).body) =
      Function.update (fun n => (self.interest n).body) fd interest.body := by
  funext n
  by_cases same : n = fd
  · subst same
    simp [set]
  · simp [set, same]

theorem epoch_set (self : Registry β ε) (fd : Nat) (interest : Interest β ε) :
    (fun n => ((self.set fd interest).interest n).epoch) =
      Function.update (fun n => (self.interest n).epoch) fd interest.epoch := by
  funext n
  by_cases same : n = fd
  · subst same
    simp [set]
  · simp [set, same]

theorem set_self (self : Registry β ε) (fd : Nat) : self.set fd (self.interest fd) = self := by
  simp [set]

theorem contents_taken (self : Registry β ε) (taken : List (Watch ε)) :
    ({ self with taken := taken } : Registry β ε).contents =
      Function.update self.contents .taken taken := by
  funext home
  cases home with
  | fd n => rfl
  | taken => rfl
  | free => rfl

theorem nextKnown_of_forall (self : Registry β ε) (isEmpty : ε → Bool) {start : Nat}
    (empty : ∀ fd, start ≤ fd → (self.interest fd).watches = []) :
    self.nextKnown isEmpty start = none := by
  unfold nextKnown
  apply dif_neg
  rintro ⟨fd, behind, any⟩
  exact any (empty fd behind)

theorem nextKnown_of_ne (self : Registry β ε) (isEmpty : ε → Bool) {start : Nat}
    (any : (self.interest start).watches ≠ []) :
    self.nextKnown isEmpty start = some ⟨BitVec.ofNat 32 start,
      wanted isEmpty (self.interest start).watches, (self.interest start).epoch⟩ := by
  have known : ∃ fd, start ≤ fd ∧ (self.interest fd).watches ≠ [] := ⟨start, le_rfl, any⟩
  classical
  have first : Nat.find known = start :=
    le_antisymm (Nat.find_min' known ⟨le_rfl, any⟩) (Nat.find_spec known).1
  unfold nextKnown
  rw [dif_pos known]
  simp only [first]

theorem nextKnown_of_empty (self : Registry β ε) (isEmpty : ε → Bool) {start : Nat}
    (empty : (self.interest start).watches = []) :
    self.nextKnown isEmpty start = self.nextKnown isEmpty (start + 1) := by
  have same : ∀ fd, (start ≤ fd ∧ (self.interest fd).watches ≠ []) ↔
      (start + 1 ≤ fd ∧ (self.interest fd).watches ≠ []) := by
    intro fd
    refine ⟨fun ⟨behind, any⟩ => ⟨?_, any⟩, fun ⟨behind, any⟩ => ⟨Nat.le_of_succ_le behind, any⟩⟩
    rcases Nat.eq_or_lt_of_le behind with rfl | later
    · exact absurd empty any
    · exact later
  by_cases known : ∃ fd, start ≤ fd ∧ (self.interest fd).watches ≠ []
  · have later : ∃ fd, start + 1 ≤ fd ∧ (self.interest fd).watches ≠ [] := by
      simpa only [same] using known
    classical
    have first : Nat.find known = Nat.find later := Nat.find_congr' fun {fd} => same fd
    unfold nextKnown
    rw [dif_pos known, dif_pos later]
    simp only [first]
  · have later : ¬∃ fd, start + 1 ≤ fd ∧ (self.interest fd).watches ≠ [] := by
      simpa only [same] using known
    unfold nextKnown
    rw [dif_neg known, dif_neg later]

end Registry

namespace FdEventSet

variable {self : FdEventSet β ε} {root : Nat} {registry : Registry β ε}

theorem construct_refines (fdrs : Nat → FdRec β) (ws : Nat → WatchRec ε) :
    (construct fdrs ws).Refines linkClean .empty := by
  have fresh : ∀ ufd, (construct fdrs ws).fdr ufd = {} := fun ufd => fdr_of_le (Nat.zero_le ufd)
  constructor
  · refine ⟨fun _ => [], ⟨⟨fun home => ?_, fun _ => List.nodup_nil, by simp, by simp⟩, by simp,
      by simp, fun home _ => ?_⟩⟩
    · cases home with
      | fd n => exact congrArg FdRec.whead (fresh n)
      | taken => rfl
      | free => rfl
    · cases home <;> rfl
  · refine ⟨fun n => congrArg FdRec.body (fresh n), fun n => congrArg FdRec.epoch (fresh n), rfl,
      fun n => ?_, List.nodup_nil, Nat.zero_le _⟩
    simp [fresh, Registry.empty]

/-- Beyond the capacity there is nothing. -/
theorem Refines.interest_of_le (refines : self.Refines root registry) {ufd : Nat}
    (outside : self.fdrCapacity ≤ ufd) :
    (registry.interest ufd).watches = [] ∧ (registry.interest ufd).body = none := by
  obtain ⟨lists, stores⟩ := refines.stores
  have fresh := fdr_of_le outside
  constructor
  · have empty : lists (.fd ufd) = [] := by
      apply (stores.chains.head_eq_stop_iff (.fd ufd)).mp
      exact congrArg FdRec.whead fresh
    have hold := stores.hold (.fd ufd) (by simp)
    rw [empty] at hold
    exact List.map_eq_nil_iff.mp hold.symm
  · have body := refines.records.body ufd
    rw [fresh] at body
    exact body.symm

theorem Refines.lt_of_mem (refines : self.Refines root registry) {ufd : Nat}
    (member : ufd ∈ registry.pending) : ufd < self.fdrCapacity :=
  refines.records.lt_of_mem member

theorem Refines.wanted (refines : self.Refines root registry) (isEmpty : ε → Bool) (ufd : Nat) :
    self.watchListMask isEmpty (self.fdr ufd).whead =
      some (Cotamer.wanted isEmpty (registry.interest ufd).watches) := by
  obtain ⟨lists, stores⟩ := refines.stores
  exact stores.wanted isEmpty (.fd ufd) (by simp)

theorem Refines.whead_eq_iff (refines : self.Refines root registry) (ufd : Nat) :
    (self.fdr ufd).whead = linkClean ↔ (registry.interest ufd).watches = [] := by
  obtain ⟨lists, stores⟩ := refines.stores
  have hold := stores.hold (.fd ufd) (by simp)
  have ends := stores.chains.head_eq_stop_iff (.fd ufd)
  refine ends.trans ⟨fun empty => ?_, fun empty => ?_⟩
  · rw [empty] at hold
    exact List.map_eq_nil_iff.mp hold.symm
  · have vacant : registry.contents (.fd ufd) = [] := empty
    rw [vacant] at hold
    exact List.map_eq_nil_iff.mp hold

/-! ## Updates -/

theorem Refines.hasUpdate (refines : self.Refines root registry) :
    self.hasUpdate = decide (registry.pending ≠ []) := by
  have begins := refines.records.updates.head_eq
  unfold FdEventSet.hasUpdate
  cases waiting : registry.pending with
  | nil =>
      rw [waiting] at begins
      simp only [begins, List.map_nil, List.headD_nil, ne_eq, not_true_eq_false]
  | cons ufd rest =>
      have inside := refines.lt_of_mem (waiting ▸ List.mem_cons_self)
      have small := refines.records.small
      rw [waiting] at begins
      have other : self.updateLink ≠ linkSentinel := by
        rw [begins, List.map_cons, List.headD_cons]
        unfold linkSentinel
        omega
      simp only [other, ne_eq, not_false_eq_true, reduceCtorEq]

/-- The record of a descriptor gets another epoch and leaves the list of updates. -/
theorem Refines.reconciled (refines : self.Refines root registry) {ufd : Nat} {rest : List Nat}
    (waiting : registry.pending = ufd :: rest) (epoch : BitVec 32) :
    Refines { self.setFdr ufd { self.fdrs ufd with updateLink := linkClean, epoch := epoch } with
        updateLink := (self.fdrs ufd).updateLink } root
      { registry.set ufd { registry.interest ufd with epoch := epoch } with pending := rest } := by
  have inside := refines.lt_of_mem (waiting ▸ List.mem_cons_self)
  have here := fdr_of_lt inside
  have changed := fdr_setFdr inside
    { self.fdrs ufd with updateLink := linkClean, epoch := epoch }
  constructor
  · obtain ⟨lists, stores⟩ := refines.stores
    have same : ({ registry.set ufd { registry.interest ufd with epoch := epoch } with
        pending := rest } : Registry β ε).contents = registry.contents := by
      refine (registry.contents_set ufd _).trans ?_
      exact Function.update_eq_self (Home.fd ufd) registry.contents
    rw [same]
    refine ⟨lists, stores.setRecord changed rfl rfl rfl ?_ fun _ => ?_⟩
    · rw [here]
    · rw [here]
  · have records := refines.records
    rw [waiting] at records
    have popped := records.popUpdate epoch { self.setFdr ufd { self.fdrs ufd with
      updateLink := linkClean, epoch := epoch } with
        updateLink := (self.fdrs ufd).updateLink } ?_ ?_ rfl
    · have sameBody := registry.body_set ufd { registry.interest ufd with epoch := epoch }
      rw [Function.update_eq_self ufd fun n => (registry.interest n).body] at sameBody
      have newEpoch := registry.epoch_set ufd { registry.interest ufd with epoch := epoch }
      rw [← sameBody, ← newEpoch] at popped
      exact popped
    · rw [here]
      exact changed
    · rw [here]

theorem Refines.popUpdate (refines : self.Refines root registry) (isEmpty : ε → Bool) :
    ∃ left, self.popUpdate isEmpty = some (left, (registry.update isEmpty).2) ∧
      left.Refines root (registry.update isEmpty).1 := by
  have any := refines.hasUpdate
  have begins := refines.records.updates.head_eq
  cases waiting : registry.pending with
  | nil =>
      have same : registry.update isEmpty = (registry, none) := by
        unfold Registry.update
        rw [waiting]
      rw [waiting] at begins
      rw [same]
      exact ⟨self, if_pos begins, refines⟩
  | cons ufd rest =>
      have inside := refines.lt_of_mem (waiting ▸ List.mem_cons_self)
      rw [waiting] at any begins
      have linked : self.updateLink ≠ linkSentinel := by
        simpa [FdEventSet.hasUpdate] using any
      have index : self.updateLink - 1 = ufd := by
        rw [begins, List.map_cons, List.headD_cons, Nat.add_sub_cancel]
      have mask := refines.wanted isEmpty ufd
      have epoch := refines.records.epoch ufd
      rw [fdr_of_lt inside] at mask epoch
      simp only [FdEventSet.popUpdate, linked, if_false, index, mask, Option.map_some,
        Registry.update, waiting, epoch]
      exact ⟨_, rfl, refines.reconciled waiting _⟩

/-- A descriptor is queued for an update. -/
theorem Refines.queueUpdate (refines : self.Refines root registry) {ufd : Nat}
    (inside : ufd < self.fdrCapacity) :
    (self.queueUpdate ufd).Refines root (registry.note ufd) := by
  constructor
  · obtain ⟨lists, stores⟩ := refines.stores
    exact ⟨lists, stores.queueUpdate inside⟩
  · exact refines.records.queueUpdate inside

/-! ## Taking and handing out -/

theorem Refines.takeWatchList (refines : self.Refines linkClean registry)
    (drained : registry.taken = []) (isEmpty : ε → Bool) (fd : BitVec 32) (imask : FdEvent)
    (epoch : BitVec 32) :
    ∃ left wix, self.takeWatchList isEmpty fd imask epoch = some (left, wix) ∧
      left.Refines wix (registry.take isEmpty fd.toNat imask epoch) ∧
      (wix = linkClean ↔ (registry.take isEmpty fd.toNat imask epoch).taken = []) := by
  have unchanged : registry.take isEmpty fd.toNat imask epoch = registry →
      self.takeWatchList isEmpty fd imask epoch = some (self, linkClean) →
      ∃ left wix, self.takeWatchList isEmpty fd imask epoch = some (left, wix) ∧
        left.Refines wix (registry.take isEmpty fd.toNat imask epoch) ∧
        (wix = linkClean ↔ (registry.take isEmpty fd.toNat imask epoch).taken = []) := by
    intro same idle
    rw [same]
    exact ⟨self, linkClean, idle, refines, iff_of_true rfl drained⟩
  by_cases outside : self.fdrCapacity ≤ fd.toNat
  · apply unchanged
    · simp only [Registry.take, (refines.interest_of_le outside).1, List.filter_nil, or_true,
        if_true]
    · exact if_pos outside
  · have inside := Nat.not_le.mp outside
    have headed := refines.whead_eq_iff fd.toNat
    have epochs := refines.records.epoch fd.toNat
    rw [fdr_of_lt inside] at headed epochs
    by_cases ignored : (self.fdrs fd.toNat).whead = linkClean ∨
        epoch ≠ 0 ∧ epoch ≠ (self.fdrs fd.toNat).epoch
    · apply unchanged
      · unfold Registry.take
        apply if_pos
        rcases ignored with empty | stale
        · right
          rw [headed.mp empty, List.filter_nil]
        · left
          rw [← epochs]
          exact stale
      · simp only [FdEventSet.takeWatchList, outside, ignored, if_false, if_true]
    · obtain ⟨lists, stores⟩ := refines.stores
      obtain ⟨ended, lists', run, stored⟩ :=
        stores.exists_takeLoop drained isEmpty imask inside
      generalize final :
        (ended.store ended.fdpprev linkClean).store ended.wpprev linkClean = last at stored
      obtain ⟨stored, ends⟩ := stored last rfl
      let fdi : FdRec β := { self.fdrs fd.toNat with whead := last.fdWhead, wtail := last.wtail }
      let left : FdEventSet β ε := { self.setFdr fd.toNat fdi with ws := last.ws }
      let kept := (registry.interest fd.toNat).watches.filter
        fun watch => !watch.concerned isEmpty imask
      let taken := (registry.interest fd.toNat).watches.filter (Watch.concerned isEmpty imask)
      let middle : Registry β ε :=
        { registry.set fd.toNat { registry.interest fd.toNat with watches := kept } with
          taken := taken }
      have called : self.takeWatchList isEmpty fd imask epoch =
          some (if last.whead ≠ linkClean then left.queueUpdate fd.toNat else left,
            last.whead) := by
        simp only [FdEventSet.takeWatchList, outside, ignored, if_false, run, Option.map_some,
          final]
        rfl
      have sorted : left.Refines last.whead middle := by
        constructor
        · refine ⟨lists', ?_⟩
          have same : middle.contents = Function.update (Function.update registry.contents
              (.fd fd.toNat) kept) .taken taken := by
            refine (Registry.contents_taken _ taken).trans ?_
            rw [registry.contents_set]
          rw [same]
          exact stored
        · have owned := refines.records.setOwner left (fdr_setFdr inside fdi) rfl
            (by rw [fdr_of_lt inside]) rfl
          have sameBody := registry.body_set fd.toNat
            { registry.interest fd.toNat with watches := kept }
          have sameEpoch := registry.epoch_set fd.toNat
            { registry.interest fd.toNat with watches := kept }
          have body : fdi.body = (registry.interest fd.toNat).body := by
            rw [← refines.records.body, fdr_of_lt inside]
          have epochsAgree : fdi.epoch = (registry.interest fd.toNat).epoch := epochs
          rw [body, epochsAgree, ← sameBody, ← sameEpoch] at owned
          exact owned
      refine ⟨_, _, called, ?_⟩
      by_cases any : taken = []
      · have same : registry.take isEmpty fd.toNat imask epoch = registry :=
          if_pos (Or.inr any)
        have all : kept = (registry.interest fd.toNat).watches := by
          apply List.filter_eq_self.mpr
          intro watch member
          have unmet := List.filter_eq_nil_iff.mp any watch member
          simpa using unmet
        have whole : middle = registry := by
          change { registry.set fd.toNat _ with taken := taken } = registry
          rw [all, any, registry.set_self fd.toNat, ← drained]
        have nothing := ends.mpr any
        rw [same, if_neg (not_not.mpr nothing)]
        exact ⟨whole ▸ sorted, iff_of_true nothing drained⟩
      · have current : ¬((epoch ≠ 0 ∧ epoch ≠ (registry.interest fd.toNat).epoch) ∨
            taken = []) := by
          rw [not_or]
          refine ⟨fun stale => ignored (Or.inr ?_), any⟩
          rw [epochs]
          exact stale
        have same : registry.take isEmpty fd.toNat imask epoch = middle.note fd.toNat :=
          if_neg current
        have something : last.whead ≠ linkClean := fun vacant => any (ends.mp vacant)
        rw [same, if_pos something]
        exact ⟨sorted.queueUpdate inside, iff_of_false something any⟩

theorem Refines.popWatchListEvent (refines : self.Refines root registry) (any : root ≠ linkClean)
    (mask : FdEvent) :
    ∃ first rest, registry.taken = first :: rest ∧
      self.popWatchListEvent root mask = (self.release root, links self.ws root,
        some first.event, if mask ≠ 0 then some mask else none) ∧
      (self.release root).Refines (links self.ws root) { registry with taken := rest } := by
  obtain ⟨lists, stores⟩ := refines.stores
  have begins := stores.chains.head_eq .taken
  change root = _ at begins
  obtain ⟨cells, shape⟩ : ∃ cells, lists .taken = root :: cells := by
    cases here : lists .taken with
    | nil =>
        rw [here] at begins
        exact absurd begins any
    | cons x cells =>
        rw [here, List.headD_cons] at begins
        exact ⟨cells, by rw [begins]⟩
  have heads : (self.release root).heads (links self.ws root) = Function.update
      (Function.update (self.heads root) .taken (links self.ws root)) .free root := by
    funext home
    cases home with
    | fd n => rfl
    | taken => rw [Function.update_of_ne (by simp), Function.update_self]; rfl
    | free => rw [Function.update_self]; rfl
  obtain ⟨first, rest, queue, held, stored⟩ :=
    stores.release (self.release root) (by simp) shape rfl rfl heads fun _ => rfl
  obtain ⟨event, has, made⟩ := Option.map_eq_some_iff.mp held
  refine ⟨first, rest, queue, ?_, ?_, ?_⟩
  · unfold FdEventSet.popWatchListEvent
    simp only [has, Option.isSome_some, true_and, ← made]
    rfl
  · rw [Registry.contents_taken]
    exact ⟨_, stored⟩
  · exact refines.records.congr (fun _ => ⟨rfl, rfl, rfl⟩) rfl refines.records.small

/-! ## Closing -/

theorem Refines.fdClose (refines : self.Refines root registry) (closed : β → Bool)
    (fd : BitVec 32) :
    ∃ left, self.fdClose closed fd = some (left, (registry.close closed fd.toNat).2) ∧
      left.Refines root (registry.close closed fd.toNat).1 ∧
      self.fdrCapacity = left.fdrCapacity := by
  have unchanged : registry.close closed fd.toNat = (registry, ⟨none, []⟩) →
      self.fdClose closed fd = some (self, ⟨none, []⟩) →
      ∃ left, self.fdClose closed fd = some (left, (registry.close closed fd.toNat).2) ∧
        left.Refines root (registry.close closed fd.toNat).1 ∧
        self.fdrCapacity = left.fdrCapacity := by
    intro same idle
    rw [same]
    exact ⟨self, idle, refines, rfl⟩
  by_cases outside : self.fdrCapacity ≤ fd.toNat
  · apply unchanged
    · unfold Registry.close
      simp only [(refines.interest_of_le outside).2]
    · exact if_pos outside
  · have inside := Nat.not_le.mp outside
    have owner := refines.records.body fd.toNat
    rw [fdr_of_lt inside] at owner
    cases owned : (registry.interest fd.toNat).body with
    | none =>
        rw [owned] at owner
        apply unchanged
        · simp only [Registry.close, owned]
        · simp only [FdEventSet.fdClose, outside, if_false, owner]
    | some body =>
        rw [owned] at owner
        by_cases done : closed body = true
        · obtain ⟨lists, stores⟩ := refines.stores
          obtain ⟨left, lists', run, stored, link, capacity, frame⟩ :=
            stores.exists_closeLoop inside (stores.length_le (.fd fd.toNat))
          have inside' : fd.toNat < left.fdrCapacity := capacity ▸ inside
          have epoch : (left.fdrs fd.toNat).epoch = (registry.interest fd.toNat).epoch := by
            rw [← fdr_of_lt inside', (frame fd.toNat).2.1]
            exact refines.records.epoch fd.toNat
          let fdi : FdRec β := { left.fdrs fd.toNat with
            wtail := linkClean, epoch := (registry.interest fd.toNat).epoch + 1, body := none }
          let given : Interest β ε := { epoch := (registry.interest fd.toNat).epoch + 1 }
          have empty : lists' (.fd fd.toNat) = [] := by
            have hold := stored.hold (.fd fd.toNat) (by simp)
            rw [Function.update_self] at hold
            exact List.map_eq_nil_iff.mp hold
          have abandoned : (left.setFdr fd.toNat fdi).Refines root
              (registry.set fd.toNat given) := by
            constructor
            · refine ⟨lists', ?_⟩
              rw [registry.contents_set]
              apply stored.setRecord (fdr_setFdr inside' fdi) rfl rfl rfl
              · rw [fdr_of_lt inside']
              · exact fun occupied => absurd empty occupied
            · have records := refines.records.congr frame link (capacity ▸ refines.records.small)
              have handedOver := records.setOwner (left.setFdr fd.toNat fdi)
                (fdr_setFdr inside' fdi) rfl (by rw [fdr_of_lt inside']) rfl
              have sameBody := registry.body_set fd.toNat given
              have sameEpoch := registry.epoch_set fd.toNat given
              rw [sameBody, sameEpoch]
              exact handedOver
          refine ⟨(left.setFdr fd.toNat fdi).queueUpdate fd.toNat, ?_, ?_, ?_⟩
          · simp only [FdEventSet.fdClose, outside, if_false, owner, done, if_true, run,
              Option.map_some, Registry.close, owned, epoch]
            rfl
          · have same : (registry.close closed fd.toNat).1 =
                (registry.set fd.toNat given).note fd.toNat := by
              simp only [Registry.close, owned, done, if_true]
              rfl
            rw [same]
            exact abandoned.queueUpdate inside'
          · rw [queueUpdate_fdrCapacity]
            exact capacity.symm
        · apply unchanged
          · simp only [Registry.close, owned, done, if_false, Bool.false_eq_true]
          · simp only [FdEventSet.fdClose, outside, if_false, owner, done, Bool.false_eq_true]

/-! ## Watching -/

theorem Refines.hardEnsure (refines : self.Refines root registry) {ufd : Nat}
    (outside : self.fdrCapacity ≤ ufd) (small : ufd < 2 ^ 31) :
    (self.hardEnsure ufd).Refines root registry := by
  have same := fdr_hardEnsure outside
  constructor
  · obtain ⟨lists, stores⟩ := refines.stores
    exact ⟨lists, stores.congr rfl rfl rfl (fun n => by rw [same]) (fun n _ => by rw [same])⟩
  · exact refines.records.congr (fun n => by rw [same]; exact ⟨rfl, rfl, rfl⟩) rfl
      (newCapacity_le outside small)

/-- A descriptor gets an owner. -/
theorem Refines.setBody (refines : self.Refines root registry) {ufd : Nat}
    (inside : ufd < self.fdrCapacity) (body : β) :
    (self.setFdr ufd { self.fdrs ufd with body := some body }).Refines root
      (registry.set ufd { registry.interest ufd with body := some body }) := by
  have here := fdr_of_lt inside
  have changed := fdr_setFdr inside { self.fdrs ufd with body := some body }
  constructor
  · obtain ⟨lists, stores⟩ := refines.stores
    have same : (registry.set ufd { registry.interest ufd with body := some body }).contents =
        registry.contents := by
      refine (registry.contents_set ufd _).trans ?_
      exact Function.update_eq_self (Home.fd ufd) registry.contents
    rw [same]
    exact ⟨lists, stores.setRecord changed rfl rfl rfl (by rw [here]) fun _ => by rw [here]⟩
  · have owned := refines.records.setOwner _ changed rfl (by rw [here]) rfl
    have epoch : (self.fdrs ufd).epoch = (registry.interest ufd).epoch := by
      rw [← here]
      exact refines.records.epoch ufd
    rw [registry.body_set, registry.epoch_set, ← epoch]
    exact owned

/-- A watch is put behind the others of its descriptor. -/
theorem Refines.appendWatch (refines : self.Refines root registry) {ufd : Nat}
    (inside : ufd < self.fdrCapacity) (imask : FdEvent) (ev : ε) :
    (self.appendWatch ufd imask ev).Refines root
      (registry.set ufd { registry.interest ufd with
        watches := (registry.interest ufd).watches ++ [⟨ev, imask⟩] }) := by
  obtain ⟨lists, stores⟩ := refines.stores
  obtain ⟨lists', stored, away, proper, bound, clean, mask⟩ := stores.newRecord imask
  have kept : (self.newRecord imask).1.fdrs = self.fdrs ∧
      (self.newRecord imask).1.fdrCapacity = self.fdrCapacity ∧
      (self.newRecord imask).1.updateLink = self.updateLink := by
    simp only [FdEventSet.newRecord]
    split <;> exact ⟨rfl, rfl, rfl⟩
  have inside' : ufd < (self.newRecord imask).1.fdrCapacity := kept.2.1 ▸ inside
  constructor
  · rw [registry.contents_set]
    have linked := stored.linkRecord inside' away proper bound clean ev
    rw [mask] at linked
    exact ⟨_, linked⟩
  · have sameFdr : ∀ n, (self.newRecord imask).1.fdr n = self.fdr n := by
      intro n
      simp only [fdr, kept.1, kept.2.1]
    have linked : (self.appendWatch ufd imask ev).updateLink = self.updateLink ∧
        (self.appendWatch ufd imask ev).fdrCapacity = self.fdrCapacity := by
      rw [← kept.2.1, ← kept.2.2]
      simp only [FdEventSet.appendWatch, FdEventSet.linkRecord]
      split <;> exact ⟨rfl, rfl⟩
    have sameBody := registry.body_set ufd { registry.interest ufd with
      watches := (registry.interest ufd).watches ++ [⟨ev, imask⟩] }
    have sameEpoch := registry.epoch_set ufd { registry.interest ufd with
      watches := (registry.interest ufd).watches ++ [⟨ev, imask⟩] }
    rw [Function.update_eq_self ufd fun n => (registry.interest n).body] at sameBody
    rw [Function.update_eq_self ufd fun n => (registry.interest n).epoch] at sameEpoch
    rw [sameBody, sameEpoch]
    apply refines.records.congr
    · intro n
      rw [← sameFdr n]
      exact linkRecord_fields inside' ev n
    · exact linked.1
    · rw [linked.2]
      exact refines.records.small

/-- A descriptor with an owner is queued, and a watch joins its queue. -/
theorem Refines.join (refines : self.Refines root registry) {ufd : Nat}
    (inside : ufd < self.fdrCapacity) (imask : FdEvent) (body : β) (ev : ε)
    (owned : (registry.interest ufd).body = some body) :
    ((self.queueUpdate ufd).appendWatch ufd imask ev).Refines root
      (registry.join ufd imask body ev) := by
  have queued := refines.queueUpdate inside
  have joined := queued.appendWatch (queueUpdate_fdrCapacity ▸ inside) imask ev
  have same : registry.join ufd imask body ev = (registry.note ufd).set ufd
      { (registry.note ufd).interest ufd with
        watches := ((registry.note ufd).interest ufd).watches ++ [⟨ev, imask⟩] } := by
    unfold Registry.join
    rw [← owned]
    rfl
  rw [same]
  exact joined

/-- A descriptor that changes hands is queued, and a watch joins its queue. -/
theorem Refines.joinOwned (refines : self.Refines root registry) {ufd : Nat}
    (inside : ufd < self.fdrCapacity) (imask : FdEvent) (body : β) (ev : ε) :
    (((self.setFdr ufd { self.fdrs ufd with body := some body }).queueUpdate ufd).appendWatch
      ufd imask ev).Refines root (registry.join ufd imask body ev) := by
  have joined := (refines.setBody inside body).join inside imask body ev (by simp [Registry.set])
  have same : (registry.set ufd { registry.interest ufd with body := some body }).join ufd imask
      body ev = registry.join ufd imask body ev := by
    unfold Registry.join Registry.note Registry.set
    simp only [Function.update_self, Function.update_idem]
  rw [← same]
  exact joined

theorem Refines.watch [DecidableEq β] (refines : self.Refines root registry)
    (closed : β → Bool) (fd : BitVec 32) (imask : FdEvent) (body : β) (ev : ε) :
    Option.Rel (fun after after' => after.1.Refines root after'.1 ∧ after.2 = after'.2)
      (self.watch closed fd imask body ev) (registry.watch closed fd imask body ev) := by
  unfold FdEventSet.watch Registry.watch
  by_cases refused : fd.slt 0 = true ∨ imask = 0
  · rw [if_pos refused, if_pos refused]
    exact .some ⟨refines, rfl⟩
  · rw [if_neg refused, if_neg refused]
    have small : fd.toNat < 2 ^ 31 := by
      rw [not_or] at refused
      have nonneg := BitVec.slt_zero_eq_msb.symm.trans (Bool.not_eq_true _ ▸ refused.1)
      exact (BitVec.msb_eq_false_iff_two_mul_lt.mp nonneg) |> fun twice => by omega
    -- from here on the record of the descriptor is there
    obtain ⟨ready, sameReady, inside, here⟩ : ∃ ready : FdEventSet β ε,
        (if self.fdrCapacity ≤ fd.toNat then self.hardEnsure fd.toNat else self) = ready ∧
        fd.toNat < ready.fdrCapacity ∧ ready.Refines root registry := by
      by_cases outside : self.fdrCapacity ≤ fd.toNat
      · rw [if_pos outside]
        exact ⟨_, rfl, newCapacity_gt _ _, refines.hardEnsure outside small⟩
      · rw [if_neg outside]
        exact ⟨_, rfl, Nat.not_le.mp outside, refines⟩
    have owner := here.records.body fd.toNat
    rw [fdr_of_lt inside] at owner
    simp only [sameReady, owner]
    cases owned : (registry.interest fd.toNat).body with
    | none =>
        simp only [reduceCtorEq, if_false, Option.isSome_none, Bool.false_eq_true,
          Option.map_some]
        exact .some ⟨here.joinOwned inside imask body ev, rfl⟩
    | some other =>
        simp only [Option.some.injEq, Option.isSome_some, if_true]
        by_cases mine : other = body
        · subst mine
          simp only [if_true, Option.map_some]
          exact .some ⟨here.join inside imask other ev owned, rfl⟩
        · obtain ⟨left, run, given, capacity⟩ := here.fdClose closed fd
          by_cases done : closed other = true
          · simp only [mine, done, if_true, if_false, run, Option.bind_some]
            have result : (registry.close closed fd.toNat).2.result =
                some (other, (registry.interest fd.toNat).epoch) := by
              simp only [Registry.close, owned, done, if_true]
            simp only [result, Option.map_some]
            exact .some ⟨given.joinOwned (capacity ▸ inside) imask body ev, rfl⟩
          · have result : (registry.close closed fd.toNat).2.result = none := by
              simp only [Registry.close, owned, done, if_false, Bool.false_eq_true]
            simp only [mine, done, if_false, Bool.false_eq_true, run, Option.bind_some, result,
              Option.map_none]
            exact .none

/-! ## Questions -/

theorem Refines.fdMask (refines : self.Refines root registry) (isEmpty : ε → Bool)
    (fd : BitVec 32) :
    self.fdMask isEmpty fd =
      some (Cotamer.wanted isEmpty (registry.interest fd.toNat).watches) := by
  unfold FdEventSet.fdMask
  by_cases outside : self.fdrCapacity ≤ fd.toNat
  · simp only [outside, if_true, (refines.interest_of_le outside).1]
    rfl
  · have mask := refines.wanted isEmpty fd.toNat
    rw [fdr_of_lt (Nat.not_le.mp outside)] at mask
    simp only [outside, if_false, mask]

theorem Refines.knownLoop (refines : self.Refines root registry) (isEmpty : ε → Bool)
    {fuel ufd : Nat} (enough : self.fdrCapacity ≤ fuel + ufd) :
    self.knownLoop isEmpty fuel ufd = some (registry.nextKnown isEmpty ufd) := by
  induction fuel generalizing ufd with
  | zero =>
      rw [Nat.zero_add] at enough
      rw [registry.nextKnown_of_forall isEmpty fun fd behind =>
        (refines.interest_of_le (Nat.le_trans enough behind)).1]
      unfold FdEventSet.knownLoop
      exact if_pos enough
  | succ fuel ih =>
      unfold FdEventSet.knownLoop
      by_cases outside : self.fdrCapacity ≤ ufd
      · rw [registry.nextKnown_of_forall isEmpty fun fd behind =>
          (refines.interest_of_le (Nat.le_trans outside behind)).1]
        exact if_pos outside
      · have inside := fdr_of_lt (Nat.not_le.mp outside)
        have headed := refines.whead_eq_iff ufd
        have mask := refines.wanted isEmpty ufd
        have epoch := refines.records.epoch ufd
        rw [inside] at headed mask epoch
        simp only [outside, if_false]
        by_cases empty : (registry.interest ufd).watches = []
        · simp only [headed.mpr empty, ne_eq, not_true_eq_false, if_false]
          rw [registry.nextKnown_of_empty isEmpty empty]
          exact ih (by omega)
        · have known : (self.fdrs ufd).whead ≠ linkClean := fun vacant => empty (headed.mp vacant)
          rw [registry.nextKnown_of_ne isEmpty empty]
          simp only [known, ne_eq, not_false_eq_true, if_true, mask, Option.map_some, epoch]

theorem Refines.nextKnown (refines : self.Refines root registry) (isEmpty : ε → Bool)
    (fd : BitVec 32) :
    self.nextKnown isEmpty fd = some (registry.nextKnown isEmpty (fd + 1).toNat) :=
  refines.knownLoop isEmpty (Nat.le_add_right _ _)

/-! ## Every call -/

/-- One call answers what the queues answer, and stores what they become. -/
theorem Refines.call [DecidableEq β] (refines : self.Refines root registry)
    (input : Surroundings β ε × FdCall β ε) :
    Option.Rel (fun after after' => after.1.1.Refines after.1.2 after'.1 ∧ after.2 = after'.2)
      (FdEventSet.call (self, root) input) (registry.call input) := by
  obtain ⟨around, call⟩ := input
  have drained : root = linkClean ↔ registry.taken = [] := by
    obtain ⟨lists, stores⟩ := refines.stores
    have hold := stores.hold .taken (by simp)
    have ends := stores.chains.head_eq_stop_iff .taken
    refine ends.trans ⟨fun empty => ?_, fun empty => ?_⟩
    · rw [empty] at hold
      exact List.map_eq_nil_iff.mp hold.symm
    · have vacant : registry.contents .taken = [] := empty
      rw [vacant] at hold
      exact List.map_eq_nil_iff.mp hold
  cases call with
  | watch fd imask body ev =>
      have related := refines.watch around.closed fd imask body ev
      simp only [FdEventSet.call, Registry.call]
      revert related
      generalize self.watch around.closed fd imask body ev = result
      generalize registry.watch around.closed fd imask body ev = result'
      rintro (⟨here, same⟩ | _)
      · exact .some ⟨here, congrArg FdAnswer.watched same⟩
      · exact .none
  | take fd imask epoch =>
      by_cases busy : root = linkClean
      · subst busy
        have idle := drained.mp rfl
        obtain ⟨left, wix, run, here, any⟩ :=
          refines.takeWatchList idle around.isEmpty fd imask epoch
        simp only [FdEventSet.call, Registry.call, ne_eq, not_true_eq_false, if_false, run,
          Option.map_some, idle]
        exact .some ⟨here, by simp only [any]⟩
      · have notIdle : registry.taken ≠ [] := fun idle => busy (drained.mpr idle)
        simp only [FdEventSet.call, Registry.call, ne_eq, busy, notIdle, not_false_eq_true, if_true]
        exact .none
  | pop mask =>
      by_cases idle : root = linkClean
      · simp only [FdEventSet.call, Registry.call, idle, if_true, drained.mp idle]
        exact .none
      · obtain ⟨first, rest, queue, popped, here⟩ := refines.popWatchListEvent idle mask
        simp only [FdEventSet.call, Registry.call, idle, if_false, popped, queue]
        exact .some ⟨here, rfl⟩
  | close fd =>
      obtain ⟨left, run, here, -⟩ := refines.fdClose around.closed fd
      simp only [FdEventSet.call, Registry.call, run, Option.map_some]
      exact .some ⟨here, rfl⟩
  | update =>
      obtain ⟨left, run, here⟩ := refines.popUpdate around.isEmpty
      simp only [FdEventSet.call, Registry.call, run, Option.map_some]
      exact .some ⟨here, rfl⟩
  | nextKnown fd =>
      simp only [FdEventSet.call, Registry.call, refines.nextKnown around.isEmpty fd,
        Option.map_some]
      exact .some ⟨refines, rfl⟩
  | mask fd =>
      simp only [FdEventSet.call, Registry.call, refines.fdMask around.isEmpty fd,
        Option.map_some]
      exact .some ⟨refines, rfl⟩
  | hasUpdate =>
      simp only [FdEventSet.call, Registry.call, refines.hasUpdate]
      exact .some ⟨refines, rfl⟩

/-- An event set cannot be told from queues: whatever memory it is constructed over and
whatever is asked of it, it answers as the queues do.  A list of watches is taken when the
one before has been popped to its end, and `pop` is called while there is one, as the
loops of the driver do; other calls may come in between.  In particular the loops of the
set end, and it fails only where a descriptor changes hands without having been closed.
(Links are numbers here, which those of the code are up to 2^32 - 1 records.) -/
theorem answers_eq [DecidableEq β] (fdrs : Nat → FdRec β) (ws : Nat → WatchRec ε)
    (inputs : List (Surroundings β ε × FdCall β ε)) :
    Transition.answers FdEventSet.call (construct fdrs ws, linkClean) inputs =
      Transition.answers Registry.call .empty inputs :=
  Transition.answers_eq_of_simulation
    (R := fun state registry => state.1.Refines state.2 registry)
    (fun _ _ input refines => refines.call input) (construct_refines fdrs ws) inputs

end FdEventSet

end DoomDraft.Cotamer
