import Mathlib.Algebra.BigOperators.Group.Finset.Basic
import DoomDraft.Cotamer.DescriptorEpochs
import DoomDraft.Cotamer.EventLinks

/-!
# The life of a body

A body has a descriptor of its own as long as it is open or some driver listens, its
listeners are the drivers that watch it, and it is deleted once, when nobody listens or
refers to it any more.  Each access that a driver makes to a body keeps that, whatever the
other drivers are about to do to it.
-/

namespace DoomDraft.Cotamer

universe u w

variable {δ : Type w} [Fintype δ]

/-! ## Counting drivers -/

theorem card_filter_update [DecidableEq δ] (counts : Phase → Bool) (phase : δ → Phase) (d : δ)
    (later : Phase) :
    (Finset.univ.filter fun d' => counts (Function.update phase d later d') = true).card +
        (counts (phase d)).toNat =
      (Finset.univ.filter fun d' => counts (phase d') = true).card + (counts later).toNat := by
  have split : ∀ phase : δ → Phase,
      (Finset.univ.filter fun d' => counts (phase d') = true).card =
        (counts (phase d)).toNat + ∑ d' ∈ Finset.univ.erase d, (counts (phase d')).toNat := by
    intro phase
    rw [Finset.card_filter, ← Finset.add_sum_erase _ _ (Finset.mem_univ d)]
    have one : ∀ d', (if counts (phase d') = true then 1 else 0) = (counts (phase d')).toNat := by
      intro d'
      cases counts (phase d') <;> rfl
    simp only [one]
  have rest : ∑ d' ∈ Finset.univ.erase d, (counts (Function.update phase d later d')).toNat =
      ∑ d' ∈ Finset.univ.erase d, (counts (phase d')).toNat := by
    refine Finset.sum_congr rfl fun d' other => ?_
    rw [Function.update_of_ne (Finset.ne_of_mem_erase other)]
  rw [split, split phase, rest, Function.update_self]
  omega

theorem mem_droppers {phase : δ → Phase} {d : δ} : d ∈ droppers phase ↔ (phase d).drops = true := by
  simp [droppers]

theorem mem_borrowers {phase : δ → Phase} {d : δ} :
    d ∈ borrowers phase ↔ (phase d).borrows = true := by
  simp [borrowers]

theorem card_droppers_update [DecidableEq δ] (phase : δ → Phase) (d : δ) (later : Phase) :
    (droppers (Function.update phase d later)).card + (phase d).drops.toNat =
      (droppers phase).card + later.drops.toNat :=
  card_filter_update Phase.drops phase d later

theorem card_borrowers_update [DecidableEq δ] (phase : δ → Phase) (d : δ) (later : Phase) :
    (borrowers (Function.update phase d later)).card + (phase d).borrows.toNat =
      (borrowers phase).card + later.borrows.toNat :=
  card_filter_update Phase.borrows phase d later

/-- Nothing is dropped or borrowed anew. -/
theorem engaged_update_le [DecidableEq δ] {phase : δ → Phase} {d : δ} {later : Phase}
    (drops : later.drops = true → (phase d).drops = true)
    (borrows : later.borrows = true → (phase d).borrows = true) :
    engaged (Function.update phase d later) ≤ engaged phase := by
  have dropped := card_droppers_update phase d later
  have borrowed := card_borrowers_update phase d later
  have fewer := Bool.toNat_le_toNat drops
  have less := Bool.toNat_le_toNat borrows
  unfold engaged
  omega

theorem card_droppers_pos {phase : δ → Phase} {d : δ} (drops : (phase d).drops = true) :
    0 < (droppers phase).card :=
  Finset.card_pos.mpr ⟨d, mem_droppers.mpr drops⟩

theorem card_borrowers_pos {phase : δ → Phase} {d : δ} (borrows : (phase d).borrows = true) :
    0 < (borrowers phase).card :=
  Finset.card_pos.mpr ⟨d, mem_borrowers.mpr borrows⟩

omit [Fintype δ] in
theorem phase_of_update [DecidableEq δ] {phase : δ → Phase} {d d' : δ} {later special : Phase}
    (other : special ≠ later) (here : Function.update phase d later d' = special) :
    d' ≠ d ∧ phase d' = special := by
  by_cases same : d' = d
  · subst same
    rw [Function.update_self] at here
    exact absurd here.symm other
  · rw [Function.update_of_ne same] at here
    exact ⟨same, here⟩

/-! ## What holds of a body -/

/-- A body, the drivers that have `watched` it and what they are about to do to it. -/
structure BodySound (watched : δ → Nat → Prop) (phase : δ → Phase) (body : FdBody δ) : Prop where
  nodup : body.drivers.Nodup
  listens : ∀ d, d ∈ body.drivers ↔
    ((∃ fd, watched d fd) ∧ phase d ≠ .joins) ∨ phase d = .leaves
  place : ∀ d fd, watched d fd → body.baseFd.toNat = fd
  gone : body.baseFd.slt 0 = true → body.drivers = [] ∧ body.fd.slt 0 = true
  opened : body.fd.slt 0 = false → body.fd = body.baseFd ∧ 0 < body.ref
  released : body.fd.slt 0 = true → body.drivers = [] → body.baseFd.slt 0 = true
  kept : body.ref = 0 → body.drivers ≠ [] ∨ ∃ d, phase d = .deletes
  enough : engaged phase ≤ body.ref
  last : ∀ d, phase d = .closes → body.ref = 1
  number : ∀ d fd, phase d = .watches fd → fd.slt 0 = false →
    fd = body.baseFd ∧ (body.fd.slt 0 = false ∨ d ∈ body.drivers)
  joining : ∀ d, phase d = .joins → body.fd.slt 0 = false ∧ ∃ fd, watched d fd
  leaving : ∀ d, phase d = .leaves → body.fd.slt 0 = true ∧ ∀ fd, ¬watched d fd
  deleting : ∀ d, phase d = .deletes → body.ref = 0 ∧ body.drivers = []
  once : ∀ d d', phase d = .deletes → phase d' = .deletes → d = d'

namespace BodySound

variable {watched after : δ → Nat → Prop} {phase : δ → Phase} {body : FdBody δ} {d : δ}

/-- Somebody who listens keeps the descriptor. -/
theorem based (ok : BodySound watched phase body) (listens : d ∈ body.drivers) :
    body.baseFd.slt 0 = false := by
  by_contra negative
  rw [(ok.gone (by simpa using negative)).1] at listens
  cases listens

/-- An open body has its descriptor. -/
theorem based_of_open (ok : BodySound watched phase body) (positive : body.fd.slt 0 = false) :
    body.baseFd.slt 0 = false :=
  (ok.opened positive).1 ▸ positive

/-- What a driver watches has a descriptor. -/
theorem based_of_watched (ok : BodySound watched phase body) {fd : Nat} (watches : watched d fd) :
    body.baseFd.slt 0 = false := by
  by_cases joins : phase d = .joins
  · exact ok.based_of_open (ok.joining d joins).1
  · exact ok.based ((ok.listens d).mpr (Or.inl ⟨⟨fd, watches⟩, joins⟩))

/-- A body is in use exactly as long as it has its descriptor. -/
theorem used_iff (ok : BodySound watched phase body) :
    body.fd.slt 0 = false ∨ body.drivers ≠ [] ↔ body.baseFd.slt 0 = false := by
  rw [← not_iff_not, not_or, Bool.not_eq_false, Bool.not_eq_false, not_not]
  exact ⟨fun unused => ok.released unused.1 unused.2, fun negative => (ok.gone negative).symm⟩

/-- A driver that is about to join has not been listed. -/
theorem notMem_of_joins (ok : BodySound watched phase body) (joins : phase d = .joins) :
    d ∉ body.drivers := by
  rw [ok.listens, joins]
  simp

/-- A new body. -/
theorem wrap (vacant : ∀ d n, ¬watched d n) (idle : ∀ d, phase d = .away) {fd : BitVec 32}
    (positive : fd.slt 0 = false) (file : Nat) :
    BodySound watched phase ⟨fd, fd, 1, [], file⟩ where
  nodup := List.nodup_nil
  listens d := by simp [vacant, idle]
  place d n watches := absurd watches (vacant d n)
  gone negative := by
    rw [positive] at negative
    cases negative
  opened _ := ⟨rfl, Nat.one_pos⟩
  released negative := by
    rw [positive] at negative
    cases negative
  kept zero := by cases zero
  enough := by
    have drops : droppers phase = ∅ := by
      ext d
      simp [mem_droppers, idle, Phase.drops]
    have borrows : borrowers phase = ∅ := by
      ext d
      simp [mem_borrowers, idle, Phase.borrows]
    simp [engaged, drops, borrows]
  last d closes := by simp [idle] at closes
  number d fd watches := by simp [idle] at watches
  joining d joins := by simp [idle] at joins
  leaving d leaves := by simp [idle] at leaves
  deleting d deletes := by simp [idle] at deletes
  once d d' deletes := by simp [idle] at deletes

/-- Who deletes a body is the last that has to do with it. -/
theorem alone_of_deletes (ok : BodySound watched phase body) (deletes : phase d = .deletes) :
    (∀ d' fd, ¬watched d' fd) ∧ (∀ d', d' ≠ d → phase d' = .away) ∧
      body.baseFd.slt 0 = true := by
  obtain ⟨zero, nobody⟩ := ok.deleting d deletes
  have enough := ok.enough
  unfold engaged at enough
  have closed : body.fd.slt 0 = true := by
    by_contra positive
    have held := (ok.opened (by simpa using positive)).2
    omega
  have base := ok.released closed nobody
  refine ⟨fun d' fd watches => ?_, fun d' other => ?_, base⟩
  · rw [ok.based_of_watched watches] at base
    cases base
  · have drops : (phase d').drops ≠ true := by
      intro drops
      have some := card_droppers_pos drops
      omega
    have borrows : (phase d').borrows ≠ true := by
      intro borrows
      have some := card_borrowers_pos borrows
      omega
    have leaves : phase d' ≠ .leaves := by
      intro leaves
      have listens := (ok.listens d').mpr (Or.inr leaves)
      rw [nobody] at listens
      cases listens
    have again : phase d' ≠ .deletes := fun again => other (ok.once d' d again deletes)
    cases now : phase d' with
    | away => rfl
    | releases => exact absurd (by rw [now]; rfl) drops
    | closes => exact absurd (by rw [now]; rfl) drops
    | watches fd => exact absurd (by rw [now]; rfl) borrows
    | joins => exact absurd (by rw [now]; rfl) borrows
    | leaves => exact absurd now leaves
    | deletes => exact absurd now again

/-- Nobody borrows the last reference when it is dropped. -/
theorem not_borrows_of_closes (ok : BodySound watched phase body) (closes : phase d = .closes)
    (d' : δ) : (phase d').borrows ≠ true := by
  intro borrows
  have one := ok.last d closes
  have enough := ok.enough
  unfold engaged at enough
  have some := card_droppers_pos (show (phase d).drops = true by rw [closes]; rfl)
  have any := card_borrowers_pos borrows
  omega

/-- Another reference is taken. -/
theorem copy (ok : BodySound watched phase body) (held : (droppers phase).card < body.ref) :
    BodySound watched phase { body with ref := body.ref + 1 } :=
  { ok with
    opened := fun positive => ⟨(ok.opened positive).1, Nat.succ_pos _⟩
    kept := fun zero => by cases zero
    enough := ok.enough.trans (Nat.le_succ _)
    last := fun d' closes => by
      have one := ok.last d' closes
      have some := card_droppers_pos (show (phase d').drops = true by rw [closes]; rfl)
      omega
    deleting := fun d' deletes => by
      have zero := (ok.deleting d' deletes).1
      omega }

variable [DecidableEq δ]

/-- A driver that does nothing to a body begins, or ends, something that changes neither the
body nor what is watched. -/
theorem proceed (ok : BodySound watched phase body) {later : Phase}
    (enough : engaged (Function.update phase d later) ≤ body.ref)
    (now : phase d ≠ .joins ∧ phase d ≠ .leaves ∧ phase d ≠ .deletes)
    (next : later ≠ .joins ∧ later ≠ .leaves ∧ later ≠ .deletes)
    (last : later = .closes → body.ref = 1)
    (number : ∀ fd, later = .watches fd → fd.slt 0 = false →
      fd = body.baseFd ∧ (body.fd.slt 0 = false ∨ d ∈ body.drivers)) :
    BodySound watched (Function.update phase d later) body := by
  have alike : ∀ d' special, special = .joins ∨ special = .leaves ∨ special = .deletes →
      (Function.update phase d later d' = special ↔ phase d' = special) := by
    intro d' special which
    by_cases same : d' = d
    · subst same
      rw [Function.update_self]
      rcases which with rfl | rfl | rfl
      · exact iff_of_false next.1 now.1
      · exact iff_of_false next.2.1 now.2.1
      · exact iff_of_false next.2.2 now.2.2
    · rw [Function.update_of_ne same]
  have joins := fun d' => alike d' .joins (Or.inl rfl)
  have leaves := fun d' => alike d' .leaves (Or.inr (Or.inl rfl))
  have deletes := fun d' => alike d' .deletes (Or.inr (Or.inr rfl))
  exact {
    nodup := ok.nodup
    listens := fun d' => by
      rw [ok.listens, Ne, Ne, joins, leaves]
    place := ok.place
    gone := ok.gone
    opened := ok.opened
    released := ok.released
    kept := fun zero => by
      simpa only [deletes] using ok.kept zero
    enough := enough
    last := fun d' closes => by
      by_cases same : d' = d
      · subst same
        rw [Function.update_self] at closes
        exact last closes
      · rw [Function.update_of_ne same] at closes
        exact ok.last d' closes
    number := fun d' fd watches => by
      by_cases same : d' = d
      · subst same
        rw [Function.update_self] at watches
        exact number fd watches
      · rw [Function.update_of_ne same] at watches
        exact ok.number d' fd watches
    joining := fun d' => by
      rw [joins]
      exact ok.joining d'
    leaving := fun d' => by
      rw [leaves]
      exact ok.leaving d'
    deleting := fun d' => by
      rw [deletes]
      exact ok.deleting d'
    once := fun d₁ d₂ => by
      rw [deletes, deletes]
      exact ok.once d₁ d₂ }

/-- `deref` loads the count. -/
theorem deref (ok : BodySound watched phase body) (idle : phase d = .away)
    (droppable : engaged phase < body.ref) :
    BodySound watched (Function.update phase d (if body.ref = 1 then .closes else .releases))
      body := by
  have drops := card_droppers_update phase d (if body.ref = 1 then .closes else .releases)
  have borrows := card_borrowers_update phase d (if body.ref = 1 then .closes else .releases)
  rw [idle] at drops borrows
  unfold engaged at droppable
  by_cases last : body.ref = 1
  · rw [if_pos last] at drops borrows ⊢
    refine ok.proceed ?_ (by simp [idle]) (by simp) (fun _ => last) (by simp)
    simp only [Phase.drops, Phase.borrows, Bool.toNat_false, Bool.toNat_true] at drops borrows
    unfold engaged
    omega
  · rw [if_neg last] at drops borrows ⊢
    refine ok.proceed ?_ (by simp [idle]) (by simp) (by simp) (by simp)
    simp only [Phase.drops, Phase.borrows, Bool.toNat_false, Bool.toNat_true] at drops borrows
    unfold engaged
    omega

/-- The `fetch_sub` of `deref`, where others are left. -/
theorem release (ok : BodySound watched phase body) (releases : phase d = .releases)
    (others : body.ref ≠ 1) :
    BodySound watched (Function.update phase d .away) { body with ref := body.ref - 1 } := by
  have drops := card_droppers_update phase d .away
  have borrows := card_borrowers_update phase d .away
  have some := card_droppers_pos (show (phase d).drops = true by rw [releases]; rfl)
  have enough := ok.enough
  rw [releases] at drops borrows
  simp only [Phase.drops, Phase.borrows, Bool.toNat_false, Bool.toNat_true] at drops borrows
  unfold engaged at enough
  have done := ok.proceed (show engaged (Function.update phase d .away) ≤ body.ref by
    unfold engaged; omega) (by simp [releases])
    (by simp) (by simp) (by simp)
  exact { done with
    opened := fun positive => ⟨(ok.opened positive).1, by
      change 0 < body.ref - 1
      omega⟩
    kept := fun (zero : body.ref - 1 = 0) => by omega
    enough := by
      change engaged _ ≤ body.ref - 1
      unfold engaged
      omega
    last := fun d' closes => absurd (done.last d' closes) others
    deleting := fun d' deletes => by
      have zero := (done.deleting d' deletes).1
      omega }

/-- `file_event` loads the number of the descriptor. -/
theorem load (ok : BodySound watched phase body) (idle : phase d = .away)
    (held : (droppers phase).card < body.ref) :
    BodySound watched (Function.update phase d (.watches body.fd)) body := by
  have drops := card_droppers_update phase d (.watches body.fd)
  have borrows := card_borrowers_update phase d (.watches body.fd)
  rw [idle] at drops borrows
  simp only [Phase.drops, Phase.borrows, Bool.toNat_false, Bool.toNat_true] at drops borrows
  refine ok.proceed (by unfold engaged; omega) (by simp [idle]) (by simp) (by simp) ?_
  rintro fd ⟨⟩ positive
  exact ⟨(ok.opened positive).1, Or.inl positive⟩

/-- The watch of `file_event` is refused, or joins those of a driver that listens. -/
theorem watch (ok : BodySound watched phase body) {fd : BitVec 32}
    (watches : phase d = .watches fd) :
    BodySound watched (Function.update phase d .away) body :=
  ok.proceed ((engaged_update_le (by simp [Phase.drops]) (by simp [Phase.borrows])).trans ok.enough)
    (by simp [watches]) (by simp) (by simp) (by simp)

/-- The descriptor is watched by a driver that is to be listed. -/
theorem join (ok : BodySound watched phase body) {fd : BitVec 32} (watches : phase d = .watches fd)
    (positive : fd.slt 0 = false) (vacant : ∀ n, ¬watched d n)
    (owners : ∀ d' n, after d' n ↔ watched d' n ∨ (d' = d ∧ n = fd.toNat)) :
    BodySound after (Function.update phase d .joins) body := by
  obtain ⟨number, use⟩ := ok.number d fd watches positive
  have away : d ∉ body.drivers := by
    rw [ok.listens, watches]
    simp [vacant]
  have isOpen : body.fd.slt 0 = false := use.resolve_right away
  have enough : engaged (Function.update phase d .joins) ≤ engaged phase :=
    engaged_update_le (by simp [Phase.drops]) (by simp [watches, Phase.borrows])
  have others : ∀ d', d' ≠ d → (∀ n, after d' n ↔ watched d' n) := fun d' other n => by
    simp [owners, other]
  constructor
  · exact ok.nodup
  · intro d'
    by_cases same : d' = d
    · subst same
      simp [away]
    · rw [Function.update_of_ne same, ok.listens]
      simp only [others d' same]
  · intro d' n which
    rcases (owners d' n).mp which with old | ⟨-, rfl⟩
    · exact ok.place d' n old
    · rw [number]
  · exact ok.gone
  · exact ok.opened
  · exact ok.released
  · intro zero
    have held := (ok.opened isOpen).2
    omega
  · exact enough.trans ok.enough
  · intro d' closes
    exact ok.last d' (phase_of_update (by simp) closes).2
  · intro d' fd' watches'
    exact ok.number d' fd' (phase_of_update (by simp) watches').2
  · intro d' joins
    refine ⟨isOpen, ?_⟩
    by_cases same : d' = d
    · exact ⟨fd.toNat, (owners d' _).mpr (Or.inr ⟨same, rfl⟩)⟩
    · rw [Function.update_of_ne same] at joins
      obtain ⟨n, old⟩ := (ok.joining d' joins).2
      exact ⟨n, (owners d' n).mpr (Or.inl old)⟩
  · intro d' leaves
    obtain ⟨other, before⟩ := phase_of_update (by simp) leaves
    simpa only [others d' other] using ok.leaving d' before
  · intro d' deletes
    exact ok.deleting d' (phase_of_update (by simp) deletes).2
  · intro d₁ d₂ first second
    exact ok.once d₁ d₂ (phase_of_update (by simp) first).2 (phase_of_update (by simp) second).2

/-- `add_listener`. -/
theorem addListener (ok : BodySound watched phase body) (joins : phase d = .joins) :
    BodySound watched (Function.update phase d .away)
      { body with drivers := body.drivers ++ [d] } := by
  obtain ⟨isOpen, watches⟩ := ok.joining d joins
  have held := (ok.opened isOpen).2
  have absent := ok.notMem_of_joins joins
  constructor
  · refine List.nodup_append.mpr ⟨ok.nodup, List.nodup_singleton d, ?_⟩
    rintro x inside y last rfl
    rw [List.mem_singleton.mp last] at inside
    exact absent inside
  · intro d'
    rw [List.mem_append, List.mem_singleton]
    by_cases same : d' = d
    · subst same
      simp [watches]
    · rw [Function.update_of_ne same, ok.listens]
      simp [same]
  · exact ok.place
  · intro negative
    rw [ok.based_of_open isOpen] at negative
    cases negative
  · exact ok.opened
  · intro closed
    rw [isOpen] at closed
    cases closed
  · intro zero
    exact absurd zero held.ne'
  · exact (engaged_update_le (by simp [Phase.drops]) (by simp [Phase.borrows])).trans ok.enough
  · intro d' closes
    exact ok.last d' (phase_of_update (by simp) closes).2
  · intro d' fd watches' positive
    obtain ⟨number, -⟩ := ok.number d' fd (phase_of_update (by simp) watches').2 positive
    exact ⟨number, Or.inl isOpen⟩
  · intro d' joins'
    exact ok.joining d' (phase_of_update (by simp) joins').2
  · intro d' leaves
    exact ok.leaving d' (phase_of_update (by simp) leaves).2
  · intro d' deletes
    exact absurd (ok.deleting d' (phase_of_update (by simp) deletes).2).1 held.ne'
  · intro d₁ d₂ first second
    exact ok.once d₁ d₂ (phase_of_update (by simp) first).2 (phase_of_update (by simp) second).2

/-- When a body is closed there is a reference, and afterwards one that nobody drops or
none at all. -/
theorem count_close (ok : BodySound watched phase body) {becauseDeref : Bool}
    (who : if becauseDeref then phase d = .closes
      else phase d = .away ∧ (droppers phase).card < body.ref)
    {later : Phase} (quiet : later.drops = false ∧ later.borrows = false) {ref : Nat}
    (count : ref = if becauseDeref then body.ref - 1 else body.ref) :
    (droppers (Function.update phase d later)).card + min 1 (borrowers phase).card ≤ ref ∧
      body.ref ≠ 0 ∧ (ref = 0 ↔ becauseDeref = true) ∧
      (ref ≠ 0 → (droppers (Function.update phase d later)).card < ref) ∧
      (ref = 0 → (borrowers phase).card = 0) := by
  have enough := ok.enough
  unfold engaged at enough
  have drops := card_droppers_update phase d later
  rw [quiet.1] at drops
  cases becauseDeref with
  | false =>
      obtain ⟨away, held⟩ := who
      rw [away] at drops
      simp only [Phase.drops, Bool.toNat_false] at drops
      simp only [Bool.false_eq_true, if_false, iff_false] at count ⊢
      omega
  | true =>
      have closes : phase d = .closes := who
      have one := ok.last d closes
      rw [closes] at drops
      simp only [Phase.drops, Bool.toNat_false, Bool.toNat_true] at drops
      simp only [if_true, iff_true] at count ⊢
      omega

/-- The locked part of `close`, which nobody overtakes: who is in the middle of `file_event`
is listed. -/
theorem close (ok : BodySound watched phase body) {becauseDeref : Bool}
    (who : if becauseDeref then phase d = .closes
      else phase d = .away ∧ (droppers phase).card < body.ref)
    (settled : body.fd.slt 0 = false → ∀ d', (phase d').borrows = true → d' ∈ body.drivers)
    {fd baseFd : BitVec 32} (closed : fd.slt 0 = true)
    (base : baseFd = if body.fd.slt 0 = false ∧ body.drivers = [] then -1 else body.baseFd) :
    BodySound watched
      (Function.update phase d
        (if becauseDeref = true ∧ body.drivers = [] then .deletes else .away))
      { body with
        fd := fd, baseFd := baseFd, ref := if becauseDeref then body.ref - 1 else body.ref } := by
  obtain ⟨later, after⟩ : ∃ later : Phase, later =
      if becauseDeref = true ∧ body.drivers = [] then .deletes else .away := ⟨_, rfl⟩
  obtain ⟨ref, count⟩ : ∃ ref, ref = if becauseDeref then body.ref - 1 else body.ref := ⟨_, rfl⟩
  rw [← after, ← count]
  have borrows := card_borrowers_update phase d later
  have quiet : later.drops = false ∧ later.borrows = false ∧ later ≠ .joins ∧ later ≠ .leaves := by
    rw [after]
    split <;> simp [Phase.drops, Phase.borrows]
  have before : phase d ≠ .joins ∧ phase d ≠ .leaves ∧ phase d ≠ .deletes ∧
      (∀ fd, phase d ≠ .watches fd) := by
    cases becauseDeref with
    | false => simp [who.1]
    | true => simp [show phase d = .closes from who]
  obtain ⟨bound, held, dropped, spare, alone⟩ := ok.count_close who ⟨quiet.1, quiet.2.1⟩ count
  have sameBorrowers :
      (borrowers (Function.update phase d later)).card ≤ (borrowers phase).card := by
    rw [quiet.2.1, Bool.toNat_false] at borrows
    omega
  have others : ∀ d', (phase d').borrows = true → ref ≠ 0 := by
    intro d' uses zero
    have some := card_borrowers_pos uses
    have none := alone zero
    omega
  have joining : ∀ d', phase d' ≠ .joins := by
    intro d' joins
    exact ok.notMem_of_joins joins
      (settled (ok.joining d' joins).1 d' (by rw [joins]; rfl))
  have deletes : ∀ d', Function.update phase d later d' = .deletes →
      d' = d ∧ becauseDeref = true ∧ body.drivers = [] := by
    intro d' which
    by_cases same : d' = d
    · subst same
      rw [Function.update_self, after] at which
      split at which
      · rename_i both
        exact ⟨rfl, both⟩
      · cases which
    · rw [Function.update_of_ne same] at which
      exact absurd (ok.deleting d' which).1 held
  have kept : body.drivers ≠ [] → baseFd = body.baseFd := by
    intro any
    rw [base, if_neg fun both => any both.2]
  constructor
  · exact ok.nodup
  · intro d'
    rw [ok.listens]
    by_cases same : d' = d
    · subst same
      rw [Function.update_self]
      simp [before, quiet]
    · rw [Function.update_of_ne same]
  · intro d' n watches
    have listens := (ok.listens d').mpr (Or.inl ⟨⟨n, watches⟩, joining d'⟩)
    rw [kept (List.ne_nil_of_mem listens)]
    exact ok.place d' n watches
  · intro negative
    rw [base] at negative
    split at negative
    · rename_i both
      exact ⟨both.2, closed⟩
    · exact ⟨(ok.gone negative).1, closed⟩
  · intro positive
    rw [closed] at positive
    cases positive
  · intro _ nobody
    change baseFd.slt 0 = true
    rw [base]
    split
    · rfl
    · rename_i not
      exact ok.released (by simpa [show body.drivers = [] from nobody] using not) nobody
  · intro zero
    by_cases nobody : body.drivers = []
    · refine Or.inr ⟨d, ?_⟩
      rw [Function.update_self, after, if_pos ⟨dropped.mp zero, nobody⟩]
    · exact Or.inl nobody
  · change engaged _ ≤ ref
    unfold engaged
    omega
  · intro d' closes
    change ref = 1
    have other := phase_of_update (by rw [after]; split <;> simp) closes
    have one := ok.last d' other.2
    have some := card_droppers_pos
      (show (Function.update phase d later d').drops = true by rw [closes]; rfl)
    have left : ref ≠ 0 := by omega
    have explicit : becauseDeref = false := by simpa [left] using dropped
    rw [count, explicit, if_neg Bool.false_ne_true]
    exact one
  · intro d' number watches positive
    obtain ⟨other, earlier⟩ := phase_of_update (by rw [after]; split <;> simp) watches
    obtain ⟨same, use⟩ := ok.number d' number earlier positive
    have listens : d' ∈ body.drivers := by
      rcases use with isOpen | listens
      · exact settled isOpen d' (by rw [earlier]; rfl)
      · exact listens
    exact ⟨same.trans (kept (List.ne_nil_of_mem listens)).symm, Or.inr listens⟩
  · intro d' joins
    obtain ⟨other, earlier⟩ := phase_of_update quiet.2.2.1.symm joins
    exact absurd earlier (joining d')
  · intro d' leaves
    obtain ⟨other, earlier⟩ := phase_of_update quiet.2.2.2.symm leaves
    exact ⟨closed, (ok.leaving d' earlier).2⟩
  · intro d' which
    obtain ⟨-, because, nobody⟩ := deletes d' which
    exact ⟨dropped.mpr because, nobody⟩
  · intro d₁ d₂ first second
    rw [(deletes d₁ first).1, (deletes d₂ second).1]

/-- A driver that has been told gives the descriptor of a closed body up. -/
theorem giveUp (ok : BodySound watched phase body) (idle : phase d = .away)
    (closed : body.fd.slt 0 = true) {n : Nat} (watches : watched d n)
    (owners : ∀ d' n, after d' n ↔ watched d' n ∧ ¬(d' = d ∧ n = body.baseFd.toNat)) :
    BodySound after (Function.update phase d .leaves) body := by
  have listens := (ok.listens d).mpr (Or.inl ⟨⟨n, watches⟩, by simp [idle]⟩)
  have others : ∀ d', d' ≠ d → ∀ n, after d' n ↔ watched d' n := fun d' other n => by
    simp [owners, other]
  have none : ∀ n, ¬after d n := by
    intro n which
    obtain ⟨old, away⟩ := (owners d n).mp which
    exact away ⟨rfl, (ok.place d n old).symm⟩
  constructor
  · exact ok.nodup
  · intro d'
    by_cases same : d' = d
    · subst same
      simp [listens]
    · rw [Function.update_of_ne same, ok.listens]
      simp only [others d' same]
  · exact fun d' n which => ok.place d' n ((owners d' n).mp which).1
  · exact ok.gone
  · exact ok.opened
  · exact ok.released
  · exact fun _ => Or.inl (List.ne_nil_of_mem listens)
  · exact (engaged_update_le (by simp [Phase.drops]) (by simp [Phase.borrows])).trans ok.enough
  · intro d' closes
    exact ok.last d' (phase_of_update (by simp) closes).2
  · intro d' fd which
    exact ok.number d' fd (phase_of_update (by simp) which).2
  · intro d' joins
    have isOpen := (ok.joining d' (phase_of_update (by simp) joins).2).1
    rw [closed] at isOpen
    cases isOpen
  · intro d' leaves
    refine ⟨closed, ?_⟩
    by_cases same : d' = d
    · rw [same]
      exact none
    · rw [Function.update_of_ne same] at leaves
      simpa only [others d' same] using (ok.leaving d' leaves).2
  · intro d' deletes
    exact ok.deleting d' (phase_of_update (by simp) deletes).2
  · intro d₁ d₂ first second
    exact ok.once d₁ d₂ (phase_of_update (by simp) first).2 (phase_of_update (by simp) second).2

/-- `remove_listener`.  The last driver takes the descriptor, and the body itself where no
reference is left. -/
theorem removeListener (ok : BodySound watched phase body) (leaves : phase d = .leaves)
    {drivers : List δ} (left : drivers = swapRemove d body.drivers) {baseFd : BitVec 32}
    (base : baseFd = if drivers = [] then -1 else body.baseFd) :
    BodySound watched
      (Function.update phase d (if drivers = [] ∧ body.ref = 0 then .deletes else .away))
      { body with drivers := drivers, baseFd := baseFd } := by
  obtain ⟨closed, none⟩ := ok.leaving d leaves
  have listened := (ok.listens d).mpr (Or.inr leaves)
  obtain ⟨later, after⟩ : ∃ later : Phase, later =
      if drivers = [] ∧ body.ref = 0 then .deletes else .away := ⟨_, rfl⟩
  rw [← after]
  have quiet : later.drops = false ∧ later.borrows = false ∧ later ≠ .joins ∧ later ≠ .leaves := by
    rw [after]
    split <;> simp [Phase.drops, Phase.borrows]
  have members : ∀ d', d' ∈ drivers ↔ d' ≠ d ∧ d' ∈ body.drivers := by
    intro d'
    rw [left, (swapRemove_perm d body.drivers).mem_iff, ok.nodup.mem_erase_iff]
  have joining : ∀ d', phase d' ≠ .joins := by
    intro d' joins
    have isOpen := (ok.joining d' joins).1
    rw [closed] at isOpen
    cases isOpen
  have deletes : ∀ d', Function.update phase d later d' = .deletes →
      d' = d ∧ drivers = [] ∧ body.ref = 0 := by
    intro d' which
    by_cases same : d' = d
    · subst same
      rw [Function.update_self, after] at which
      split at which
      · rename_i both
        exact ⟨rfl, both⟩
      · cases which
    · rw [Function.update_of_ne same] at which
      rw [(ok.deleting d' which).2] at listened
      cases listened
  have kept : drivers ≠ [] → baseFd = body.baseFd := by
    intro any
    rw [base, if_neg any]
  constructor
  · change drivers.Nodup
    rw [left]
    exact (swapRemove_perm d _).nodup_iff.mpr (ok.nodup.erase d)
  · intro d'
    change d' ∈ drivers ↔ _
    rw [members, ok.listens]
    by_cases same : d' = d
    · subst same
      simp [none, quiet]
    · rw [Function.update_of_ne same]
      simp [same]
  · intro d' n watches
    have other : d' ≠ d := by
      rintro rfl
      exact none n watches
    have inside := (members d').mpr
      ⟨other, (ok.listens d').mpr (Or.inl ⟨⟨n, watches⟩, joining d'⟩)⟩
    rw [kept (List.ne_nil_of_mem inside)]
    exact ok.place d' n watches
  · intro negative
    refine ⟨?_, closed⟩
    by_contra any
    rw [kept any, ok.based listened] at negative
    cases negative
  · intro positive
    rw [closed] at positive
    cases positive
  · intro _ nobody
    change baseFd.slt 0 = true
    rw [base, if_pos nobody]
    rfl
  · intro zero
    by_cases nobody : drivers = []
    · refine Or.inr ⟨d, ?_⟩
      rw [Function.update_self, after, if_pos ⟨nobody, zero⟩]
    · exact Or.inl nobody
  · exact (engaged_update_le (by simp [quiet]) (by simp [quiet])).trans ok.enough
  · intro d' closes
    exact ok.last d' (phase_of_update (by rw [after]; split <;> simp) closes).2
  · intro d' fd watches positive
    obtain ⟨other, earlier⟩ := phase_of_update (by rw [after]; split <;> simp) watches
    obtain ⟨same, use⟩ := ok.number d' fd earlier positive
    have inside := (members d').mpr ⟨other, use.resolve_left (by rw [closed]; rintro ⟨⟩)⟩
    exact ⟨same.trans (kept (List.ne_nil_of_mem inside)).symm, Or.inr inside⟩
  · intro d' joins
    exact absurd (phase_of_update quiet.2.2.1.symm joins).2 (joining d')
  · intro d' which
    exact ⟨closed, (ok.leaving d' (phase_of_update quiet.2.2.2.symm which).2).2⟩
  · intro d' which
    obtain ⟨-, nobody, zero⟩ := deletes d' which
    exact ⟨zero, nobody⟩
  · intro d₁ d₂ first second
    rw [(deletes d₁ first).1, (deletes d₂ second).1]

end BodySound

end DoomDraft.Cotamer
