import Mathlib.Logic.Equiv.Basic
import DoomDraft.Cotamer.DescriptorBodies

/-!
# Who closes a descriptor

Every open descriptor has one owner, a body or a driver that is about to close it, and a
driver that listens to a closed body has been sent its number or is about to be.
-/

namespace DoomDraft.Cotamer

open FdEventSet

universe u v w

variable {δ : Type w} {β : Type u} {ε : Type v}

/-- A driver watches a descriptor on behalf of a body. -/
def Interested (registry : δ → Registry β ε) (b : β) (d : δ) (fd : Nat) : Prop :=
  ((registry d).interest fd).body = some b

/-- A body that has a descriptor, or a driver that is about to close it. -/
def Io.Holds (io : Io δ β ε) (who : β ⊕ δ) (fd file : Nat) : Prop :=
  match who with
  | .inl b => ∃ body, io.body b = some body ∧ body.baseFd.slt 0 = false ∧
      body.baseFd.toNat = fd ∧ body.file = file
  | .inr d => ∃ baseFd deletable, (io.call d).front = some (.osClose baseFd file deletable) ∧
      baseFd.toNat = fd

/-- The open descriptors are those that somebody holds, and no file is held twice. -/
structure Io.Owned (io : Io δ β ε) : Prop where
  held : ∀ fd file, io.os fd = some file ↔ ∃ who, io.Holds who fd file
  unique : ∀ who who' fd fd' file, io.Holds who fd file → io.Holds who' fd' file → who = who'
  older : ∀ fd file, io.os fd = some file → file < io.files

/-- All drivers and bodies are sound together. -/
structure Io.Sound [Fintype δ] [DecidableEq β] (io : Io δ β ε) (registry : δ → Registry β ε) :
    Prop where
  driver : ∀ d, DriverSound io.body io.isEmpty (registry d) (io.driver d)
  body : ∀ b body, io.body b = some body → BodySound (Interested registry b) (io.phase b) body
  live : ∀ d fd b, Interested registry b d fd → ∃ body, io.body b = some body
  involved : ∀ d b, io.phase b d ≠ .away → ∃ body, io.body b = some body
  owned : io.Owned
  alone : ∀ d, (io.call d).joins ≠ none → (io.call d).front = none

/-- A driver has been sent the number of a descriptor, or somebody is about to notify it. -/
def Io.Pending (io : Io δ β ε) (d : δ) (fd : Nat) : Prop :=
  (∃ message ∈ (io.driver d).migrateFdClose, message.toNat = fd) ∨
    ∃ d' message, (d, message) ∈ (io.call d').todo ∧ message.toNat = fd

/-- A driver that watches the descriptor of a closed body has been told. -/
def Io.Told (io : Io δ β ε) (registry : δ → Registry β ε) : Prop :=
  ∀ d fd b body, Interested registry b d fd → io.body b = some body → body.fd.slt 0 = true →
    io.Pending d fd

/-- What the drivers have been told by the kernel is about the files that it seems to be
about, and so was what has triggered events. -/
structure Io.Fresh (io : Io δ β ε) (registry : δ → Registry β ε) (steps : Nat) : Prop where
  driver : ∀ d, DriverFresh io.body io.installed (registry d) (io.driver d) steps
  delivered : ∀ ev source, (ev, source) ∈ io.delivered → io.installed ev = some source

namespace Io

variable {io next : Io δ β ε} {registry after : δ → Registry β ε} {steps : Nat}

/-! ## Owners -/

/-- A body or a driver holds one descriptor. -/
theorem Holds.number {who : β ⊕ δ} {fd fd' file file' : Nat} (holds : io.Holds who fd file)
    (holds' : io.Holds who fd' file') : fd = fd' ∧ file = file' := by
  cases who with
  | inl b =>
      obtain ⟨body, known, -, number, same⟩ := holds
      obtain ⟨body', known', -, number', same'⟩ := holds'
      obtain rfl := Option.some.inj (known.symm.trans known')
      exact ⟨number.symm.trans number', same.symm.trans same'⟩
  | inr d =>
      obtain ⟨baseFd, deletable, front, number⟩ := holds
      obtain ⟨baseFd', deletable', front', number'⟩ := holds'
      obtain ⟨rfl, rfl, -⟩ := IoAccess.osClose.inj (Option.some.inj (front.symm.trans front'))
      exact ⟨number.symm.trans number', rfl⟩

/-- Descriptors change hands. -/
theorem Owned.permute (owned : io.Owned) (os : next.os = io.os) (files : next.files = io.files)
    (hands : Equiv.Perm (β ⊕ δ))
    (holds : ∀ who fd file, next.Holds who fd file ↔ io.Holds (hands who) fd file) :
    next.Owned where
  held fd file := by
    rw [os, owned.held]
    constructor
    · rintro ⟨who, held⟩
      refine ⟨hands.symm who, (holds _ fd file).mpr ?_⟩
      rwa [hands.apply_symm_apply]
    · rintro ⟨who, held⟩
      exact ⟨hands who, (holds who fd file).mp held⟩
  unique who who' fd fd' file held held' :=
    hands.injective (owned.unique _ _ fd fd' file ((holds who fd file).mp held)
      ((holds who' fd' file).mp held'))
  older fd file isOpen := by
    rw [files]
    exact owned.older fd file (os ▸ isOpen)

theorem Owned.frame (owned : io.Owned) (os : next.os = io.os) (files : next.files = io.files)
    (holds : ∀ who fd file, next.Holds who fd file ↔ io.Holds who fd file) : next.Owned :=
  owned.permute os files (Equiv.refl _) holds

/-- The holder of a descriptor closes it. -/
theorem Owned.drop (owned : io.Owned) {gone : β ⊕ δ} {fd file : Nat}
    (holder : io.Holds gone fd file) (os : next.os = Function.update io.os fd none)
    (files : next.files = io.files)
    (holds : ∀ who n f, next.Holds who n f ↔ who ≠ gone ∧ io.Holds who n f) : next.Owned where
  held n f := by
    rw [os]
    constructor
    · intro isOpen
      have other : n ≠ fd := by
        rintro rfl
        rw [Function.update_self] at isOpen
        cases isOpen
      rw [Function.update_of_ne other, owned.held] at isOpen
      obtain ⟨who, held⟩ := isOpen
      refine ⟨who, (holds who n f).mpr ⟨?_, held⟩⟩
      rintro rfl
      exact other (held.number holder).1
    · rintro ⟨who, held⟩
      obtain ⟨other, held⟩ := (holds who n f).mp held
      have isOpen := (owned.held n f).mpr ⟨who, held⟩
      rw [Function.update_of_ne, isOpen]
      rintro rfl
      have same := (owned.held n file).mpr ⟨gone, holder⟩
      obtain rfl := Option.some.inj (isOpen.symm.trans same)
      exact other (owned.unique who gone n n f held holder)
  unique who who' n n' f held held' :=
    owned.unique who who' n n' f ((holds who n f).mp held).2 ((holds who' n' f).mp held').2
  older n f isOpen := by
    rw [os] at isOpen
    rw [files]
    apply owned.older n f
    rw [← isOpen, Function.update_of_ne]
    rintro rfl
    rw [Function.update_self] at isOpen
    cases isOpen

/-- A new file is opened, and somebody holds its descriptor. -/
theorem Owned.add (owned : io.Owned) {new : β ⊕ δ} {fd : Nat} (unused : io.os fd = none)
    (none : ∀ n f, ¬io.Holds new n f) (os : next.os = Function.update io.os fd (some io.files))
    (files : next.files = io.files + 1)
    (holds : ∀ who n f, next.Holds who n f ↔
      io.Holds who n f ∨ (who = new ∧ n = fd ∧ f = io.files)) : next.Owned where
  held n f := by
    rw [os]
    by_cases here : n = fd
    · subst here
      rw [Function.update_self]
      constructor
      · intro same
        exact ⟨new, (holds new n f).mpr (Or.inr ⟨rfl, rfl, (Option.some.inj same).symm⟩)⟩
      · rintro ⟨who, held⟩
        rcases (holds who n f).mp held with old | ⟨-, -, rfl⟩
        · rw [(owned.held n f).mpr ⟨who, old⟩] at unused
          cases unused
        · rfl
    · rw [Function.update_of_ne here, owned.held]
      refine exists_congr fun who => ?_
      rw [holds]
      simp [here]
  unique who who' n n' f held held' := by
    rcases (holds who n f).mp held with old | ⟨rfl, -, rfl⟩
    · rcases (holds who' n' f).mp held' with old' | ⟨-, -, rfl⟩
      · exact owned.unique who who' n n' f old old'
      · exact absurd (owned.older n _ ((owned.held n _).mpr ⟨who, old⟩)) (lt_irrefl _)
    · rcases (holds who' n' io.files).mp held' with old' | ⟨rfl, -, -⟩
      · exact absurd (owned.older n' _ ((owned.held n' _).mpr ⟨who', old'⟩)) (lt_irrefl _)
      · rfl
  older n f isOpen := by
    rw [files]
    rw [os] at isOpen
    by_cases here : n = fd
    · subst here
      rw [Function.update_self] at isOpen
      rw [← Option.some.inj isOpen]
      exact Nat.lt_succ_self _
    · rw [Function.update_of_ne here] at isOpen
      exact Nat.lt_succ_of_lt (owned.older n f isOpen)

/-! ## What a step keeps -/

section Steps

variable [Fintype δ] [DecidableEq β]

/-- The body of a watched descriptor, and the open file that the descriptor is. -/
theorem Sound.owner_of_watched (sound : io.Sound registry) {d : δ} {fd : Nat} {b : β}
    (watches : Interested registry b d fd) :
    ∃ body, io.body b = some body ∧ body.baseFd.toNat = fd ∧ body.baseFd.slt 0 = false ∧
      io.os fd = some body.file := by
  obtain ⟨body, known⟩ := sound.live d fd b watches
  have ok := sound.body b body known
  have place := ok.place d fd watches
  have base := ok.based_of_watched watches
  exact ⟨body, known, place, base,
    (sound.owned.held fd body.file).mpr ⟨.inl b, body, known, base, place, rfl⟩⟩

/-- What a driver is about to close is not registered anywhere. -/
theorem Sound.file_ne (sound : io.Sound registry) {d d' : δ} {fd file n : Nat}
    (holds : io.Holds (.inr d) fd file) {entry : Registration}
    (registered : (io.driver d').epoll n = some entry) : entry.file ≠ file := by
  rintro rfl
  obtain ⟨-, -, b, body, watches, known, same⟩ := (sound.driver d').entry n entry registered
  obtain ⟨body', known', place, base, -⟩ := sound.owner_of_watched watches
  obtain rfl := Option.some.inj (known.symm.trans known')
  cases sound.owned.unique (.inl b) (.inr d) n fd entry.file
    ⟨body, known, base, place, same⟩ holds

/-- A step keeps everything sound if it does so with the bodies that it is about. -/
theorem Sound.step (sound : io.Sound registry)
    (drivers : ∀ d, DriverSound io.body next.isEmpty (after d) (next.driver d))
    (sameFile : ∀ b body changed, io.body b = some body → next.body b = some changed →
      changed.file = body.file)
    (bodies : ∀ b, (next.body b = io.body b ∧ Interested after b = Interested registry b ∧
        next.phase b = io.phase b) ∨
      ((∀ changed, next.body b = some changed →
          BodySound (Interested after b) (next.phase b) changed) ∧
        (next.body b = none → (∀ d fd, ¬Interested after b d fd) ∧ ∀ d, next.phase b d = .away)))
    (owned : next.Owned) (alone : ∀ d, (next.call d).joins ≠ none → (next.call d).front = none) :
    next.Sound after := by
  have live : ∀ d fd b, Interested after b d fd → ∃ body, next.body b = some body := by
    intro d fd b watches
    rcases bodies b with ⟨sameBody, sameOwner, -⟩ | ⟨-, gone⟩
    · rw [sameBody]
      rw [sameOwner] at watches
      exact sound.live d fd b watches
    · apply Option.ne_none_iff_exists'.mp
      intro none
      exact (gone none).1 d fd watches
  refine ⟨fun d => ?_, fun b body known => ?_, live, fun d b busy => ?_, owned, alone⟩
  · refine (drivers d).mono (fun fd b body watches known => ?_) fun _ dead => dead
    obtain ⟨changed, known'⟩ := live d fd b watches
    exact ⟨changed, known', sameFile b body changed known known'⟩
  · rcases bodies b with ⟨sameBody, sameOwner, samePhase⟩ | ⟨mine, -⟩
    · rw [sameOwner, samePhase]
      exact sound.body b body (sameBody ▸ known)
    · exact mine body known
  · rcases bodies b with ⟨sameBody, -, samePhase⟩ | ⟨-, gone⟩
    · rw [sameBody]
      exact sound.involved d b (samePhase ▸ busy)
    · apply Option.ne_none_iff_exists'.mp
      intro none
      exact busy ((gone none).2 d)

/-- Drivers that wait for no more than before. -/
theorem Fresh.step (fresh : io.Fresh registry steps) (sound : next.Sound after)
    (sameFile : ∀ b body changed, io.body b = some body → next.body b = some changed →
      changed.file = body.file)
    (drivers : ∀ d, DriverFresh io.body next.installed (after d) (next.driver d) (steps + 1))
    (grows : ∀ ev file, io.installed ev = some file → next.installed ev = some file)
    (delivered : ∀ ev source, (ev, source) ∈ next.delivered →
      (ev, source) ∈ io.delivered ∨ next.installed ev = some source) :
    next.Fresh after (steps + 1) where
  driver d := by
    refine (drivers d).mono (fun n b body watches known => ?_) (fun _ _ same => same) le_rfl
    obtain ⟨changed, known'⟩ := sound.live d n b watches
    exact ⟨changed, known', sameFile b body changed known known'⟩
  delivered ev source member := by
    rcases delivered ev source member with old | new
    · exact grows ev source (fresh.delivered ev source old)
    · exact new

end Steps

/-- A driver whose queues and notifications stay waits for what it waited for. -/
theorem Fresh.same (fresh : io.Fresh registry steps) {d : δ} {driver : IoDriver β ε}
    (batch : driver.batch = (io.driver d).batch) (source : driver.source = (io.driver d).source) :
    DriverFresh io.body io.installed (registry d) driver (steps + 1) :=
  ((fresh.driver d).mono (fun _ _ body _ known => ⟨body, known, rfl⟩) (fun _ _ same => same)
    (Nat.le_succ steps)).same batch source

/-- What has been closed before is still being told, and no message gets lost. -/
theorem Told.step (told : io.Told registry)
    (before : ∀ d fd b body, Interested after b d fd → next.body b = some body →
      body.fd.slt 0 = true → next.Pending d fd ∨
        (Interested registry b d fd ∧ ∃ body', io.body b = some body' ∧ body'.fd.slt 0 = true))
    (pending : ∀ d fd b, Interested after b d fd → io.Pending d fd → next.Pending d fd) :
    next.Told after := by
  intro d fd b body watches known closed
  rcases before d fd b body watches known closed with now | ⟨watches', body', known', closed'⟩
  · exact now
  · exact pending d fd b watches (told d fd b body' watches' known' closed')

/-- No message and no notification gets lost. -/
theorem Pending.mono {d : δ} {fd : Nat} (pending : io.Pending d fd)
    (messages : ∀ message ∈ (io.driver d).migrateFdClose,
      message ∈ (next.driver d).migrateFdClose ∨ ∃ d', (d, message) ∈ (next.call d').todo)
    (todo : ∀ d' message, (d, message) ∈ (io.call d').todo → message.toNat = fd →
      message ∈ (next.driver d).migrateFdClose ∨ ∃ d', (d, message) ∈ (next.call d').todo) :
    next.Pending d fd := by
  have arrived : ∀ message : BitVec 32, message.toNat = fd →
      (message ∈ (next.driver d).migrateFdClose ∨ ∃ d', (d, message) ∈ (next.call d').todo) →
      next.Pending d fd := by
    rintro message number (sent | ⟨d', waits⟩)
    · exact Or.inl ⟨message, sent, number⟩
    · exact Or.inr ⟨d', message, waits, number⟩
  rcases pending with ⟨message, sent, number⟩ | ⟨d', message, waits, number⟩
  · exact arrived message number (messages message sent)
  · exact arrived message number (todo d' message waits number)

end Io

end DoomDraft.Cotamer
