import DoomDraft.Server.Subscription

/-!
# What a browser has read over all its connections

Each connection brings a stretch of the commits that starts behind the version
in its request, and what the editor does not ignore of all stretches together, and of
the answers to its own POSTs, is every commit once, in order.
-/

namespace DoomDraft.Server

open Document EventStream Search

/-! ## Requests for the stream -/

/-- The version behind which the server resumes for an id. -/
def resumePoint (lastEventId : ByteString) : Int :=
  (parseVersion lastEventId).getD 0

theorem resumePoint_decimal {n : Nat} (small : n < 2 ^ 63) : resumePoint (decimal n) = n := by
  rw [resumePoint, parseVersion_decimal small, Option.getD_some]

theorem parseVersion_eq_none_of_large {n : Nat} (large : 2 ^ 63 ≤ n) :
    parseVersion (decimal n) = none := by
  obtain ⟨c, rest, split, digit⟩ := decimal_head n
  obtain ⟨-, -, noMinus, -⟩ := digit_cases c digit
  have unsigned : (decimal n).head? ≠ some (byte '-') := by
    rw [split]
    exact fun same => noMinus (Option.some.inj same)
  have outside : ¬ InInt64 (n : Int) := by
    unfold InInt64
    omega
  simp [parseVersion, unsigned, takeWhile_isDigit_decimal, decimalValue_decimal, outside]

/-- The server never resumes behind a later version than the id says. -/
theorem resumePoint_decimalInt_le {version : Int} (nonneg : 0 ≤ version) :
    resumePoint (decimalInt version) ≤ version := by
  obtain ⟨n, rfl⟩ := Int.eq_ofNat_of_zero_le nonneg
  rcases lt_or_ge n (2 ^ 63) with small | large
  · exact (resumePoint_decimal small).le
  · have none_read : resumePoint (decimal n) = 0 := by
      rw [resumePoint, parseVersion_eq_none_of_large large, Option.getD_none]
    exact none_read.trans_le nonneg

theorem not_docIdByte_slash : docIdByte (byte '/') = false := by
  decide

/-- The request for a stream is dispatched to the stream of its document. -/
theorem dispatch_streamRequest {docId : ByteString} (valid : validDocId docId = true)
    (req : StreamRequest docId) :
    dispatch req.request.received = .stream docId (resumePoint req.lastEventId) := by
  have noSlash : byte '/' ∉ docId := by
    intro member
    have accepted := ((validDocId_iff docId).mp valid).2 _ member
    rw [not_docIdByte_slash] at accepted
    contradiction
  have start : (ascii ['/', 'd', 'o', 'c', '/']).isPrefixOf req.request.path = true := by
    rw [req.isStream, List.append_assoc, List.isPrefixOf_iff_prefix]
    exact List.prefix_append _ _
  have behind : req.request.path.drop (ascii ['/', 'd', 'o', 'c', '/']).length =
      docId ++ byte '/' :: ascii ['s', 't', 'r', 'e', 'a', 'm'] := by
    rw [req.isStream, List.append_assoc, List.drop_left]
    rfl
  have slash : find [byte '/'] (docId ++ byte '/' :: ascii ['s', 't', 'r', 'e', 'a', 'm']) =
      some docId.length := find_append_needle noSlash [] _
  have rest : (docId ++ byte '/' :: ascii ['s', 't', 'r', 'e', 'a', 'm']).drop (docId.length + 1) =
      ascii ['s', 't', 'r', 'e', 'a', 'm'] := by
    rw [← List.drop_drop, List.drop_left]
    rfl
  have route : parseDocRoute req.request.path =
      some (docId, ascii ['s', 't', 'r', 'e', 'a', 'm']) := by
    simp only [parseDocRoute, start, if_true, behind, slash, List.take_left, valid, rest]
  have header : findHeader req.request.head lastEventIdName = req.lastEventId :=
    req.formed.findHeader_head (by decide)
  have get : req.request.received.method = methodGet := req.isGet
  have path : parseDocRoute req.request.received.path = _ := route
  have head : resumeFrom req.request.received.head = resumePoint req.lastEventId := by
    rw [resumePoint, ← header]
    rfl
  have notPost : methodGet ≠ methodPost := by decide
  have notEmpty : ascii ['s', 't', 'r', 'e', 'a', 'm'] ≠ [] := by decide
  simp only [dispatch, get, path, head, notPost, notEmpty, Option.map_some, Option.some.injEq,
    false_and, and_false, if_false, true_and, if_true, Option.getD_some]

/-! ## What the editor takes -/

theorem eventVersion_opEvent (c : CommittedOp) : eventVersion (opEvent c) = some c.version := by
  have isOp : (opEvent c).type = ascii ['o', 'p'] := rfl
  have decoded : Json.decode (opEvent c).data = some (opMessage c) := decode_opData c
  rw [eventVersion, if_pos isOp, decoded]
  rfl

theorem freshOps_append (serverVersion : Int) (first second : List Incoming) :
    freshOps serverVersion (first ++ second) =
      ((freshOps (freshOps serverVersion first).1 second).1,
        (freshOps serverVersion first).2 ++
          (freshOps (freshOps serverVersion first).1 second).2) := by
  induction first generalizing serverVersion with
  | nil => rfl
  | cons incoming first ih =>
      rw [List.cons_append, freshOps, freshOps]
      cases incoming.version with
      | none => exact ih serverVersion
      | some version =>
          by_cases old : version ≤ serverVersion
          · simp only [if_pos old]
            exact ih serverVersion
          · simp only [if_neg old, ih version]
            rfl

/-- The version does not fall, and is at least what has been handed over. -/
theorem le_freshOps (serverVersion : Int) (incoming : List Incoming) :
    serverVersion ≤ (freshOps serverVersion incoming).1 ∧
      ∀ i ∈ incoming, ∀ version ∈ i.version, version ≤ (freshOps serverVersion incoming).1 := by
  induction incoming generalizing serverVersion with
  | nil => exact ⟨le_rfl, by simp⟩
  | cons first rest ih =>
      rw [List.forall_mem_cons, freshOps]
      cases which : first.version with
      | none =>
          obtain ⟨above, covers⟩ := ih serverVersion
          exact ⟨above, by simp, covers⟩
      | some version =>
          simp only [Option.mem_some_iff, forall_eq']
          by_cases old : version ≤ serverVersion
          · obtain ⟨above, covers⟩ := ih serverVersion
            rw [if_pos old]
            exact ⟨above, old.trans above, covers⟩
          · obtain ⟨above, covers⟩ := ih version
            rw [if_neg old]
            exact ⟨(not_le.mp old).le.trans above, above, covers⟩

/-- What the editor has already is ignored. -/
theorem freshOps_of_stale {serverVersion : Int} {incoming : List Incoming}
    (stale : ∀ i ∈ incoming, ∀ version ∈ i.version, version ≤ serverVersion) :
    freshOps serverVersion incoming = (serverVersion, []) := by
  induction incoming with
  | nil => rfl
  | cons first rest ih =>
      rw [List.forall_mem_cons] at stale
      rw [freshOps]
      cases which : first.version with
      | none => exact ih stale.2
      | some version => exact (if_pos (stale.1 version which)).trans (ih stale.2)

/-- The operations of frames. -/
def frameOps (frames : List Frame) : List CommittedOp :=
  frames.filterMap Frame.op?

/-- The editor passes over operations just as the stream does. -/
theorem freshOps_dispatchAll (id : ByteString) (serverVersion : Int) (frames : List Frame) :
    freshOps serverVersion ((Frame.dispatchAll id frames).map .streamed) =
      ((scanOps serverVersion (frameOps frames)).1,
        (scanOps serverVersion (frameOps frames)).2.map fun c => .streamed (opEvent c)) := by
  induction frames generalizing id serverVersion with
  | nil => rfl
  | cons frame frames ih =>
      cases frame with
      | op c =>
          have events : (Frame.dispatchAll id (.op c :: frames)).map Incoming.streamed =
              .streamed (opEvent c) ::
                (Frame.dispatchAll (decimalInt c.version) frames).map Incoming.streamed := rfl
          have ops : frameOps (.op c :: frames) = c :: frameOps frames := rfl
          rw [events, ops, freshOps, Incoming.version, eventVersion_opEvent, scanOps]
          by_cases old : c.version ≤ serverVersion
          · simp only [if_pos old, ih]
          · simp only [if_neg old, ih]
            rfl
      | retry => exact ih id serverVersion
      | cursor cur => exact ih id serverVersion
      | ping => exact ih id serverVersion

/-- The ids of events name versions that the editor has. -/
theorem resumePoint_dispatchAll_le {id : ByteString} {serverVersion : Int} {frames : List Frame}
    (known : resumePoint id ≤ serverVersion) (nonneg : ∀ c ∈ frameOps frames, 0 ≤ c.version) :
    ∀ event ∈ Frame.dispatchAll id frames,
      resumePoint event.lastEventId ≤ (scanOps serverVersion (frameOps frames)).1 := by
  induction frames generalizing id serverVersion with
  | nil => exact fun _ member => absurd member List.not_mem_nil
  | cons frame frames ih =>
      have upward := (fst_scanOps_ge serverVersion (frameOps (frame :: frames))).1
      have inherited : resumePoint id ≤ (scanOps serverVersion (frameOps (frame :: frames))).1 :=
        known.trans upward
      cases frame with
      | op c =>
          have ops : frameOps (.op c :: frames) = c :: frameOps frames := rfl
          rw [ops] at nonneg ⊢
          rw [List.forall_mem_cons] at nonneg
          have named := resumePoint_decimalInt_le nonneg.1
          refine List.forall_mem_cons.mpr ⟨?_, ?_⟩
          · exact named.trans ((fst_scanOps_ge serverVersion _).2 c List.mem_cons_self)
          · rw [scanOps]
            split
            · rename_i old
              exact ih (named.trans old) nonneg.2
            · exact ih named nonneg.2
      | retry => exact ih known nonneg
      | cursor cur => exact List.forall_mem_cons.mpr ⟨inherited, ih known nonneg⟩
      | ping => exact List.forall_mem_cons.mpr ⟨inherited, ih known nonneg⟩

/-- What the editor has taken of what it has been handed is every commit since version
`base`, up to the version that it is at. -/
structure Delivered (committed : List CommittedOp) (base : Int) (received : List Incoming) :
    Prop where
  fresh : ∃ ops : List CommittedOp, List.Forall₂ Incoming.Carries (freshOps base received).2 ops ∧
    ops.map bare =
      committed.filter fun c => base < c.version ∧ c.version ≤ (freshOps base received).1
  started : base ≤ (freshOps base received).1
  known : (freshOps base received).1 = base ∨
    ∃ c ∈ committed, c.version = (freshOps base received).1
  named : ∀ id ∈ received.filterMap Incoming.lastEventId,
    resumePoint id ≤ (freshOps base received).1

variable {committed : List CommittedOp} {base : Int} {received : List Incoming}

theorem delivered_nil (base : Int) : Delivered [] base [] where
  fresh := ⟨[], .nil, rfl⟩
  started := le_rfl
  known := Or.inl rfl
  named := by simp

/-- A later commit is newer than everything that has been delivered. -/
theorem Delivered.commit {c : CommittedOp} (delivered : Delivered committed base received)
    (newer : ∀ d ∈ committed, d.version < c.version) :
    Delivered (committed ++ [c]) base received where
  fresh := by
    have unseen : ¬ (base < c.version ∧ c.version ≤ (freshOps base received).1) := by
      rintro ⟨above, below⟩
      rcases delivered.known with same | ⟨d, member, same⟩
      · omega
      · have := newer d member
        omega
    obtain ⟨ops, taken, read⟩ := delivered.fresh
    refine ⟨ops, taken, ?_⟩
    rw [List.filter_append, List.filter_singleton, read]
    simp [unseen]
  started := delivered.started
  known := delivered.known.imp_right fun ⟨d, member, same⟩ =>
    ⟨d, List.mem_append_left _ member, same⟩
  named := delivered.named

/-- In order, what is before an element of a prefix is in the prefix. -/
theorem mem_of_prefix {list front : List CommittedOp} (sorted : KeySorted CommittedOp.version list)
    (isPrefix : front <+: list) {c d : CommittedOp} (dMem : d ∈ front) (cMem : c ∈ list)
    (before : c.version ≤ d.version) : c ∈ front := by
  obtain ⟨rest, rfl⟩ := isPrefix
  rcases List.mem_append.mp cMem with inside | behind
  · exact inside
  · exact absurd ((List.pairwise_append.mp sorted).2.2 d dMem c behind) (not_lt.mpr before)

/-- A connection that resumes behind a version that the editor has, and ends
somewhere. -/
theorem Delivered.append {id : ByteString} {frames : List Frame} {lastSeen : Int}
    (delivered : Delivered committed base received)
    (sorted : KeySorted CommittedOp.version committed) (nonneg : ∀ c ∈ committed, 0 ≤ c.version)
    (resumed : resumePoint id ≤ (freshOps base received).1)
    (sent : (frameOps frames).map bare <+:
      committed.filter fun c => resumePoint id < c.version ∧ c.version ≤ lastSeen) :
    Delivered committed base (received ++ (Frame.dispatchAll id frames).map .streamed) := by
  set seen := (freshOps base received).1 with seenIs
  have stretchSorted := sorted.filter fun c => resumePoint id < c.version ∧ c.version ≤ lastSeen
  have member : ∀ c ∈ frameOps frames, bare c ∈ committed := fun c inFrames =>
    (List.mem_filter.mp (sent.subset (List.mem_map_of_mem inFrames))).1
  have bareSorted : KeySorted CommittedOp.version ((frameOps frames).map bare) :=
    stretchSorted.sublist sent.sublist
  have opsSorted := bareSorted
  rw [KeySorted, List.pairwise_map] at opsSorted
  have scanned := freshOps_dispatchAll id seen frames
  obtain ⟨monotone, covers⟩ := fst_scanOps_ge seen (frameOps frames)
  have seenMem := fst_scanOps_mem seen (frameOps frames)
  have taken := snd_scanOps opsSorted seen
  have atEnd : (freshOps base (received ++ (Frame.dispatchAll id frames).map .streamed)).1 =
      (scanOps seen (frameOps frames)).1 := by
    rw [freshOps_append, ← seenIs, scanned]
  constructor
  · obtain ⟨ops, before, read⟩ := delivered.fresh
    refine ⟨ops ++ (scanOps seen (frameOps frames)).2, ?_, ?_⟩
    · rw [freshOps_append, ← seenIs, scanned]
      exact List.rel_append before (List.forall₂_map_left_iff.mpr (List.forall₂_same.mpr
        fun _ _ => rfl))
    · have fresh : (scanOps seen (frameOps frames)).2.map bare =
          ((frameOps frames).map bare).filter (seen < ·.version) := by
        rw [taken, List.filter_map]
        rfl
      rw [atEnd, List.map_append, read, fresh]
      refine KeySorted.eq_of_mem_iff ?_ (sorted.filter _) ?_
      · refine List.pairwise_append.mpr ⟨sorted.filter _, bareSorted.filter _, ?_⟩
        intro c cMem d dMem
        have below := of_decide_eq_true (List.mem_filter.mp cMem).2
        have above := of_decide_eq_true (List.mem_filter.mp dMem).2
        exact below.2.trans_lt above
      · intro c
        simp only [List.mem_append, List.mem_filter, decide_eq_true_eq]
        constructor
        · rintro (⟨inLog, above, below⟩ | ⟨inFrames, above⟩)
          · exact ⟨inLog, above, below.trans monotone⟩
          · obtain ⟨d, dMem, rfl⟩ := List.mem_map.mp inFrames
            exact ⟨member d dMem, delivered.started.trans_lt above, covers d dMem⟩
        · rintro ⟨inLog, above, below⟩
          rcases le_or_gt c.version seen with old | new
          · exact Or.inl ⟨inLog, above, old⟩
          · refine Or.inr ⟨?_, new⟩
            rcases seenMem with same | ⟨d, dMem, same⟩
            · omega
            · -- A frame has the newest version that is taken, so the commit is in the stretch.
              have dSent : bare d ∈ (frameOps frames).map bare := List.mem_map_of_mem dMem
              have upTo := (of_decide_eq_true (List.mem_filter.mp (sent.subset dSent)).2).2
              rw [← same] at below
              refine mem_of_prefix stretchSorted sent dSent (List.mem_filter.mpr ⟨inLog, ?_⟩) below
              exact decide_eq_true ⟨resumed.trans_lt new, below.trans upTo⟩
  · rw [atEnd]
    exact delivered.started.trans monotone
  · rw [atEnd]
    rcases seenMem with same | ⟨c, inFrames, version⟩
    · rw [same]
      exact delivered.known
    · exact Or.inr ⟨bare c, member c inFrames, version⟩
  · rw [atEnd]
    intro given inEvents
    rw [List.filterMap_append] at inEvents
    rcases List.mem_append.mp inEvents with old | new
    · exact (delivered.named given old).trans monotone
    · obtain ⟨_, isEvent, gives⟩ := List.mem_filterMap.mp new
      obtain ⟨event, dispatched, rfl⟩ := List.mem_map.mp isEvent
      obtain rfl := Option.some.inj gives
      exact resumePoint_dispatchAll_le resumed
        (fun c inFrames => nonneg (bare c) (member c inFrames)) event dispatched

/-- What the editor has already need not be handed over again. -/
theorem Delivered.of_stale {stale fresh : List Incoming}
    (delivered : Delivered committed base (received ++ (stale ++ fresh)))
    (known : ∀ i ∈ stale, ∀ version ∈ i.version, version ≤ (freshOps base received).1) :
    Delivered committed base (received ++ fresh) := by
  have same : freshOps base (received ++ fresh) = freshOps base (received ++ (stale ++ fresh)) := by
    rw [freshOps_append, freshOps_append, freshOps_append (freshOps base received).1,
      freshOps_of_stale known, List.nil_append]
  refine ⟨same ▸ delivered.fresh, same ▸ delivered.started, same ▸ delivered.known, ?_⟩
  intro id given
  rw [same]
  apply delivered.named id
  simp only [List.filterMap_append, List.mem_append] at given ⊢
  exact given.imp_right Or.inr

/-- The answer to a POST is ignored, or it brings the next commit. -/
theorem Delivered.acknowledge {c : CommittedOp} (delivered : Delivered committed base received)
    (sorted : KeySorted CommittedOp.version committed) (member : c ∈ committed) (plain : bare c = c)
    (next : ∀ d ∈ committed, (freshOps base received).1 < d.version → c.version ≤ d.version) :
    Delivered committed base (received ++ [.acknowledged c.version]) := by
  have named : (received ++ [Incoming.acknowledged c.version]).filterMap Incoming.lastEventId =
      received.filterMap Incoming.lastEventId := by
    rw [List.filterMap_append]
    exact List.append_nil _
  set seen := (freshOps base received).1 with seenIs
  by_cases old : c.version ≤ seen
  · have ignored : freshOps base (received ++ [.acknowledged c.version]) =
        freshOps base received := by
      rw [freshOps_append, freshOps_of_stale, List.append_nil]
      simpa [Incoming.version] using old
    refine ⟨?_, ?_, ?_, ?_⟩
    · rw [ignored]
      exact delivered.fresh
    · rw [ignored]
      exact delivered.started
    · rw [ignored]
      exact delivered.known
    · rw [ignored, named]
      exact delivered.named
  · have taken : freshOps base (received ++ [.acknowledged c.version]) =
        (c.version, (freshOps base received).2 ++ [.acknowledged c.version]) := by
      rw [freshOps_append, freshOps]
      simp [Incoming.version, ← seenIs, old, freshOps]
    have above : seen < c.version := not_le.mp old
    refine ⟨?_, ?_, ?_, ?_⟩
    · rw [taken]
      obtain ⟨ops, carried, read⟩ := delivered.fresh
      refine ⟨ops ++ [c], List.rel_append carried (.cons rfl .nil), ?_⟩
      rw [List.map_append, read, List.map_singleton, plain]
      refine KeySorted.eq_of_mem_iff ?_ (sorted.filter _) fun d => ?_
      · refine List.pairwise_append.mpr ⟨sorted.filter _, List.pairwise_singleton _ _, ?_⟩
        intro d inside last isLast
        rw [List.mem_singleton.mp isLast]
        exact (of_decide_eq_true (List.mem_filter.mp inside).2).2.trans_lt above
      · simp only [List.mem_append, List.mem_filter, decide_eq_true_eq, List.mem_singleton]
        constructor
        · rintro (⟨inLog, later, below⟩ | rfl)
          · exact ⟨inLog, later, below.trans above.le⟩
          · exact ⟨member, delivered.started.trans_lt above, le_rfl⟩
        · rintro ⟨inLog, later, below⟩
          rcases le_or_gt d.version seen with known | unknown
          · exact Or.inl ⟨inLog, later, known⟩
          · exact Or.inr (KeySorted.injOn sorted inLog member
              (below.antisymm (next d inLog unknown)))
    · rw [taken]
      exact delivered.started.trans above.le
    · rw [taken]
      exact Or.inr ⟨c, member, rfl⟩
    · rw [taken, named]
      exact fun id given => (delivered.named id given).trans above.le

/-! ## Steps of the server -/

/-- What an action appends to the stream and to the commits. -/
theorem DocServer.step_appends {w next : DocServer} {action : StreamAction}
    (stepped : w.step action = some next) :
    next.emitted = w.emitted ++ w.emits action ∧
      (next.committed = w.committed ∨ ∃ c, next.committed = w.committed ++ [c]) := by
  cases action with
  | put stored label =>
      cases stored with
      | op put =>
          simp only [DocServer.step] at stepped
          split at stepped
          · obtain rfl := Option.some.inj stepped
            exact ⟨(List.append_nil _).symm, Or.inl rfl⟩
          · split at stepped
            · contradiction
            · obtain rfl := Option.some.inj stepped
              exact ⟨(List.append_nil _).symm, Or.inr ⟨_, rfl⟩⟩
      | other req notOp =>
          obtain rfl := Option.some.inj stepped
          exact ⟨(List.append_nil _).symm, Or.inl rfl⟩
  | noteLabel cidHash label =>
      obtain rfl := Option.some.inj stepped
      exact ⟨(List.append_nil _).symm, Or.inl rfl⟩
  | noteCommitted position =>
      simp only [DocServer.step] at stepped
      split at stepped
      · contradiction
      · obtain rfl := Option.some.inj stepped
        exact ⟨(List.append_nil _).symm, Or.inl rfl⟩
  | refresh =>
      obtain rfl := Option.some.inj stepped
      exact ⟨(List.append_nil _).symm, Or.inl rfl⟩
  | scan =>
      obtain rfl := Option.some.inj stepped
      exact ⟨rfl, Or.inl rfl⟩

namespace DocServer

variable {docId : ByteString} {resumeFrom : Int} {w : DocServer}

theorem Sound.committed_nonneg (sound : Sound docId resumeFrom w) :
    ∀ c ∈ w.committed, 0 ≤ c.version := by
  intro c member
  rw [← sound.reads] at member
  obtain ⟨key, cell, found, read⟩ := mem_readOps.mp member
  rw [readCell_version read]
  exact (sound.versioned.bounds key cell found).1.le

/-- A new stream on the same server. -/
theorem Sound.resume (sound : Sound docId resumeFrom w) (resumeAfter : Int) :
    Sound docId resumeAfter { w with lastSeen := resumeAfter, emitted := [] } where
  named := sound.named
  versioned := sound.versioned
  reads := sound.reads
  cached := sound.cached
  cacheSorted := sound.cacheSorted
  newest := sound.newest
  noted := sound.noted
  started := le_rfl
  known := Or.inl rfl
  sent := by
    refine (List.filter_eq_nil_iff.mpr ?_).symm
    intro c _
    rw [decide_eq_true_eq]
    rintro ⟨above, below⟩
    exact absurd above (not_lt.mpr below)

end DocServer

/-! ## Runs -/

namespace Subscription

variable {docId : ByteString} {base : Int} {w next : Subscription}

/-- The server is sound, the frames hold what it has emitted, and what the editor has been
handed is delivered, the first events of the present connection among it. -/
structure Resumes (docId : ByteString) (base : Int) (w : Subscription) : Prop where
  sound : w.server.Sound docId (resumePoint w.lastEventId)
  framed : frameOps w.frames = w.server.emitted
  delivered : Delivered w.server.committed base w.received
  resumed : resumePoint w.lastEventId ≤ w.serverVersion base
  heard : w.heard ≤ (Frame.dispatchAll w.lastEventId w.frames).length
  stale : ∀ event ∈ (Frame.dispatchAll w.lastEventId w.frames).take w.heard,
    ∀ version ∈ eventVersion event, version ≤ w.serverVersion base

theorem resumes_start (docId : ByteString) (loaded : 0 ≤ base) :
    Resumes docId base (start docId) where
  sound := DocServer.sound_start docId 0
  framed := rfl
  delivered := delivered_nil base
  resumed := loaded
  heard := le_rfl
  stale := by simp [start]

/-- More is written, and the browser has not read it. -/
theorem Resumes.write (resumes : Resumes docId base w) {more : List Frame}
    (sound : next.server.Sound docId (resumePoint w.lastEventId))
    (emitted : next.server.emitted = w.server.emitted ++ frameOps more)
    (delivered : Delivered next.server.committed base w.received)
    (frames : next.frames = w.frames ++ more) (heard : next.heard = w.heard)
    (received : next.received = w.received) (id : next.lastEventId = w.lastEventId) :
    Resumes docId base next := by
  have dispatched : Frame.dispatchAll next.lastEventId next.frames =
      Frame.dispatchAll w.lastEventId w.frames ++
        Frame.dispatchAll (w.frames.foldl Frame.idBehind w.lastEventId) more := by
    rw [id, frames, Frame.dispatchAll_append]
  constructor
  · rwa [id]
  · rw [frames, frameOps, List.filterMap_append, emitted, ← resumes.framed]
    rfl
  · rwa [received]
  · rw [id, serverVersion, received]
    exact resumes.resumed
  · rw [dispatched, heard, List.length_append]
    exact resumes.heard.trans (Nat.le_add_right _ _)
  · rw [dispatched, heard, List.take_append_of_le_length resumes.heard, serverVersion, received]
    exact resumes.stale

/-- The first bytes of the present connection come in. -/
theorem Resumes.arrive (resumes : Resumes docId base w) (arrived : Nat) :
    ∀ events, events = (w.arrivedEvents arrived).drop w.heard →
      Resumes docId base { w with
        heard := w.heard + events.length
        received := w.received ++ events.map .streamed } := by
  rintro _ rfl
  obtain ⟨k, complete⟩ := Frame.exists_events_take_text w.frames arrived
  rw [arrivedEvents, complete]
  set whole := Frame.dispatchAll w.lastEventId w.frames with wholeIs
  obtain ⟨later, split⟩ : ∃ later, whole =
      Frame.dispatchAll w.lastEventId (w.frames.take k) ++ later := by
    rw [wholeIs]
    nth_rewrite 1 [← List.take_append_drop k w.frames]
    exact ⟨_, Frame.dispatchAll_append _ _ _⟩
  set all := Frame.dispatchAll w.lastEventId (w.frames.take k) with allIs
  rcases le_or_gt w.heard all.length with further | nothing
  · have sameFront : all.take w.heard = whole.take w.heard := by
      rw [split, List.take_append_of_le_length further]
    have stale : ∀ i ∈ (all.take w.heard).map Incoming.streamed, ∀ version ∈ i.version,
        version ≤ (freshOps base w.received).1 := by
      rw [sameFront]
      intro i isEvent
      obtain ⟨event, member, rfl⟩ := List.mem_map.mp isEvent
      exact resumes.stale event member
    have sent : (frameOps (w.frames.take k)).map bare <+: w.server.emitted.map bare := by
      rw [← resumes.framed]
      exact ((List.take_prefix k w.frames).filterMap Frame.op?).map bare
    rw [resumes.sound.sent] at sent
    have again := resumes.delivered.append resumes.sound.committed_sorted
      resumes.sound.committed_nonneg resumes.resumed sent
    rw [← allIs, ← List.take_append_drop w.heard all, List.map_append] at again
    have delivered := again.of_stale stale
    have monotone : (freshOps base w.received).1 ≤
        (freshOps base (w.received ++ (all.drop w.heard).map .streamed)).1 := by
      rw [freshOps_append]
      exact (le_freshOps _ _).1
    have length : w.heard + (all.drop w.heard).length = all.length := by
      rw [List.length_drop]
      omega
    refine ⟨resumes.sound, resumes.framed, delivered, resumes.resumed.trans monotone, ?_, ?_⟩
    · change w.heard + _ ≤ whole.length
      rw [length, split, List.length_append]
      exact Nat.le_add_right _ _
    · intro event member version isVersion
      change event ∈ whole.take (w.heard + _) at member
      rw [length, split, List.take_left, ← List.take_append_drop w.heard all] at member
      rcases List.mem_append.mp member with old | new
      · exact (stale _ (List.mem_map_of_mem old) version isVersion).trans monotone
      · refine (le_freshOps base _).2 (.streamed event) ?_ version isVersion
        exact List.mem_append_right _ (List.mem_map_of_mem new)
  · rw [List.drop_of_length_le nothing.le]
    simpa using resumes

/-- One action. -/
theorem Resumes.step (valid : validDocId docId = true) {action : SubscriptionAction docId}
    (resumes : Resumes docId base w) (loaded : 0 ≤ base) (care : w.skips base action = false)
    (stepped : w.step action = some next) : Resumes docId base next := by
  cases action with
  | serve action =>
      obtain ⟨server, served, rfl⟩ := Option.map_eq_some_iff.mp stepped
      have sound := resumes.sound.step care served
      obtain ⟨emitted, committed⟩ := DocServer.step_appends served
      have ops : frameOps ((w.server.emits action).map Frame.op) = w.server.emits action := by
        rw [frameOps, List.filterMap_map]
        exact List.filterMap_some
      refine resumes.write sound (ops.symm ▸ emitted) ?_ rfl rfl rfl rfl
      rcases committed with same | ⟨c, grown⟩
      · rw [same]
        exact resumes.delivered
      · have sorted := sound.committed_sorted
        rw [grown] at sorted ⊢
        refine resumes.delivered.commit fun d member => ?_
        exact (List.pairwise_append.mp sorted).2.2 d member c (List.mem_singleton_self c)
  | noteCursor version clientId pos =>
      obtain rfl := Option.some.inj stepped
      exact resumes.write resumes.sound (List.append_nil _).symm resumes.delivered
        (List.append_nil _).symm rfl rfl rfl
  | refreshCursors =>
      obtain rfl := Option.some.inj stepped
      exact resumes.write resumes.sound (List.append_nil _).symm resumes.delivered
        (List.append_nil _).symm rfl rfl rfl
  | scanCursors =>
      simp only [Subscription.step] at stepped
      split at stepped
      · obtain rfl := Option.some.inj stepped
        exact resumes
      · obtain rfl := Option.some.inj stepped
        refine resumes.write resumes.sound ?_ resumes.delivered rfl rfl rfl rfl
        simp [frameOps, Frame.op?]
  | ping =>
      obtain rfl := Option.some.inj stepped
      exact resumes.write resumes.sound (List.append_nil _).symm resumes.delivered rfl rfl rfl rfl
  | arrive arrived =>
      obtain rfl := Option.some.inj stepped
      exact resumes.arrive arrived _ rfl
  | acknowledge version =>
      obtain ⟨isCommit, stepped⟩ := Option.ite_none_right_eq_some.mp stepped
      obtain rfl := Option.some.inj stepped
      obtain ⟨c, member, same⟩ := List.any_eq_true.mp isCommit
      obtain rfl := of_decide_eq_true same
      have plain : bare c = c :=
        PerDocCache.bare_of_mem_readOps (resumes.sound.reads.symm ▸ member)
      have next : ∀ d ∈ w.server.committed, w.serverVersion base < d.version →
          c.version ≤ d.version := by
        intro d inLog unseen
        have passed := List.any_eq_false.mp care d inLog
        simp only [decide_eq_true_eq, not_and, not_lt] at passed
        exact passed unseen
      have monotone : w.serverVersion base ≤
          (freshOps base (w.received ++ [.acknowledged c.version])).1 := by
        rw [freshOps_append]
        exact (le_freshOps _ _).1
      exact ⟨resumes.sound, resumes.framed,
        resumes.delivered.acknowledge resumes.sound.committed_sorted member plain next,
        resumes.resumed.trans monotone, resumes.heard, fun event inside version isVersion =>
          (resumes.stale event inside version isVersion).trans monotone⟩
  | reconnect req =>
      simp only [Subscription.step, dispatch_streamRequest valid req] at stepped
      obtain ⟨given, stepped⟩ := Option.ite_none_right_eq_some.mp stepped
      obtain rfl := Option.some.inj stepped
      refine ⟨resumes.sound.resume _, rfl, resumes.delivered, ?_, Nat.zero_le _, by simp⟩
      rcases given with empty | ofEvent
      · rw [empty]
        exact loaded.trans resumes.delivered.started
      · exact resumes.delivered.named _ ofEvent

/-- In every run in which no scan and no answer to a POST passes over a commit, whichever
bytes are lost when connections break, and whichever of its ids the browser sends when it
connects again: what the editor does not ignore of the events and the answers brings every
commit newer than the version that it has loaded, up to the version that it is at, each
once and in order, and a connection brings only commits newer than the id in its request.
No key of an operation is put twice. -/
theorem reconnect_exactlyOnce (valid : validDocId docId = true) (loaded : 0 ≤ base)
    {actions : List (SubscriptionAction docId)}
    (run : (start docId).perform actions = some w)
    (careful : Transition.Permitted step (fun state action => state.skips base action = false)
      (start docId) actions) :
    (∃ ops : List CommittedOp, List.Forall₂ Incoming.Carries (freshOps base w.received).2 ops ∧
      ops.map bare = w.server.committed.filter fun c =>
        base < c.version ∧ c.version ≤ w.serverVersion base) ∧
      ∀ n < 2 ^ 63, w.lastEventId = decimal n →
        ∀ c, Frame.op c ∈ w.frames → (n : Int) < c.version := by
  have resumes : Resumes docId base w := Transition.perform_induction
    (fun _ _ _ resumes care stepped => resumes.step valid loaded care stepped)
    (resumes_start docId loaded) careful run
  refine ⟨resumes.delivered.fresh, ?_⟩
  intro n small id c framed
  have emitted : c ∈ w.server.emitted := by
    rw [← resumes.framed]
    exact List.mem_filterMap.mpr ⟨_, framed, rfl⟩
  have sent : bare c ∈ w.server.emitted.map bare := List.mem_map_of_mem emitted
  rw [resumes.sound.sent, id, resumePoint_decimal small] at sent
  exact (of_decide_eq_true (List.mem_filter.mp sent).2).1

/-! ## Cursors -/

/-- The cursors in frames. -/
def cursorsOf (frames : List Frame) : List CursorEntry :=
  frames.filterMap Frame.cursor?

/-- While the epochs agree, the cursors that were sent last are those of the
cache. -/
structure CursorsSent (w : Subscription) : Prop where
  behind : w.lastCursorEpoch ≤ w.cursors.cursorEpoch
  unused : w.cursors.cursorEpoch = 0 → w.cursors.cursors = OrderedMap.empty
  current : w.lastCursorEpoch = w.cursors.cursorEpoch →
    w.cursors.cursors.entries.map (·.2) <:+ cursorsOf w.frames

theorem cursorsSent_start (docId : ByteString) : CursorsSent (start docId) where
  behind := le_rfl
  unused := fun _ => rfl
  current := fun _ => List.nil_suffix

/-- A change of the cursors is noticed. -/
theorem CursorsSent.change (sent : CursorsSent w) (cursors : OrderedMap Nat CursorEntry) :
    CursorsSent { w with cursors := ⟨cursors, w.cursors.cursorEpoch + 1⟩ } where
  behind := Nat.le_succ_of_le sent.behind
  unused := fun zero => absurd zero (Nat.succ_ne_zero _)
  current := fun same => by
    have behind := sent.behind
    simp only at same
    omega

theorem cursorsOf_append_eq {frames more : List Frame} (none_sent : ∀ frame ∈ more,
    frame.cursor? = none) : cursorsOf (frames ++ more) = cursorsOf frames := by
  rw [cursorsOf, List.filterMap_append, List.filterMap_eq_nil_iff.mpr none_sent, List.append_nil]
  rfl

theorem CursorsSent.scanCursors (sent : CursorsSent w)
    (stepped : w.step (.scanCursors : SubscriptionAction docId) = some next) :
    CursorsSent next ∧ next.cursors = w.cursors ∧ next.server = w.server ∧
      next.lastCursorEpoch = next.cursors.cursorEpoch := by
  simp only [Subscription.step] at stepped
  split at stepped
  · rename_i same
    obtain rfl := Option.some.inj stepped
    exact ⟨sent, rfl, rfl, same.symm⟩
  · obtain rfl := Option.some.inj stepped
    refine ⟨⟨le_rfl, sent.unused, fun _ => ?_⟩, rfl, rfl, rfl⟩
    have all : ∀ entries : List (Nat × CursorEntry),
        cursorsOf (entries.map fun entry => .cursor entry.2) = entries.map (·.2) := by
      intro entries
      rw [cursorsOf, List.filterMap_map]
      exact congrFun List.filterMap_eq_map entries
    rw [cursorsOf, List.filterMap_append, ← cursorsOf, ← cursorsOf, all]
    exact List.suffix_append _ _

theorem CursorsSent.step {action : SubscriptionAction docId} (sent : CursorsSent w)
    (stepped : w.step action = some next) : CursorsSent next := by
  cases action with
  | serve action =>
      obtain ⟨server, served, rfl⟩ := Option.map_eq_some_iff.mp stepped
      refine ⟨sent.behind, sent.unused, fun same => ?_⟩
      rw [cursorsOf_append_eq]
      · exact sent.current same
      · intro frame member
        obtain ⟨c, -, rfl⟩ := List.mem_map.mp member
        rfl
  | noteCursor version clientId pos =>
      obtain rfl := Option.some.inj stepped
      exact sent.change _
  | refreshCursors =>
      obtain rfl := Option.some.inj stepped
      rw [CursorCache.refreshCursorsFromDb]
      split
      · exact sent
      · exact sent.change _
  | scanCursors => exact (sent.scanCursors stepped).1
  | ping =>
      obtain rfl := Option.some.inj stepped
      refine ⟨sent.behind, sent.unused, fun same => ?_⟩
      rw [cursorsOf_append_eq]
      · exact sent.current same
      · exact fun frame member => List.mem_singleton.mp member ▸ rfl
  | arrive arrived =>
      obtain rfl := Option.some.inj stepped
      exact ⟨sent.behind, sent.unused, sent.current⟩
  | acknowledge version =>
      obtain ⟨-, stepped⟩ := Option.ite_none_right_eq_some.mp stepped
      obtain rfl := Option.some.inj stepped
      exact ⟨sent.behind, sent.unused, sent.current⟩
  | reconnect req =>
      simp only [Subscription.step] at stepped
      obtain ⟨-, stepped⟩ := Option.ite_none_right_eq_some.mp stepped
      split at stepped
      · obtain rfl := Option.some.inj stepped
        refine ⟨Nat.zero_le _, sent.unused, fun same => ?_⟩
        rw [sent.unused same.symm]
        exact List.nil_suffix
      · contradiction

/-- In every run in which no key of an operation is put twice, once the poller and then
the loop of the stream have gone round, the cursors that the connection was sent last are
all cursors of the database, whatever of them was sent before. -/
theorem cursors_complete {actions : List (SubscriptionAction docId)} {polled scanned : Subscription}
    (run : (start docId).perform actions = some w)
    (poll : w.step (.refreshCursors : SubscriptionAction docId) = some polled)
    (scan : polled.step (.scanCursors : SubscriptionAction docId) = some scanned) :
    (freshCursors scanned.server.db docId).entries.map (·.2) <:+ cursorsOf scanned.frames := by
  have sent : CursorsSent w := Transition.perform_invariant
    (fun _ _ _ sent stepped => sent.step stepped) (cursorsSent_start docId) run
  obtain ⟨sentScan, cursors, server, epoch⟩ := (sent.step poll).scanCursors scan
  have fresh : polled.cursors.cursors = freshCursors w.server.db docId ∧
      polled.server = w.server := by
    obtain rfl := Option.some.inj poll
    rw [CursorCache.refreshCursorsFromDb]
    split
    · rename_i same
      exact ⟨same.symm, rfl⟩
    · exact ⟨rfl, rfl⟩
  have current := sentScan.current epoch
  rwa [cursors, fresh.1, ← fresh.2, ← server] at current

theorem cursorPut_notOp (clientId : ByteString) (pos : Int) :
    ¬ IsOpKey (cursorPut 1 (ascii ['d']) clientId pos).key := by
  rintro ⟨docId, x, y, -, -, same⟩
  have inKey : byte 'p' ∈ (cursorPut 1 (ascii ['d']) clientId pos).key := by
    rw [same]
    simp [docOpPrefix, ascii]
  rw [cursorPut, cursorKey] at inKey
  rcases List.mem_append.mp inKey with inPrefix | inHash
  · exact absurd inPrefix (by decide)
  · exact absurd (isDigit_of_mem_decimal inHash) (by decide)

/-- A cursor is committed. -/
def putCursor (clientId : ByteString) (pos : Int) : SubscriptionAction (ascii ['d']) :=
  .serve (.put (.other (cursorPut 1 (ascii ['d']) clientId pos) (cursorPut_notOp clientId pos)) [])

/-- A cursor is committed and sent, and then another client's and a later one of the
first. -/
def movedCursors : List (SubscriptionAction (ascii ['d'])) :=
  [putCursor (ascii ['c']) 3, .refreshCursors, .scanCursors, putCursor (ascii ['e']) 5,
    putCursor (ascii ['c']) 4]

theorem cursors_complete_movedCursors : ∃ w polled scanned : Subscription,
    (start (ascii ['d'])).perform movedCursors = some w ∧
      w.step (.refreshCursors : SubscriptionAction (ascii ['d'])) = some polled ∧
      polled.step (.scanCursors : SubscriptionAction (ascii ['d'])) = some scanned ∧
      cursorsOf w.frames = [⟨1, ascii ['c'], 3⟩] ∧
      (freshCursors scanned.server.db (ascii ['d'])).entries.map (·.2) =
        [⟨3, ascii ['c'], 4⟩, ⟨2, ascii ['e'], 5⟩] ∧
      [⟨3, ascii ['c'], 4⟩, ⟨2, ascii ['e'], 5⟩] <:+ cursorsOf scanned.frames := by
  have facts : ((start (ascii ['d'])).perform movedCursors).any (fun w =>
        cursorsOf w.frames = [⟨1, ascii ['c'], 3⟩]) = true ∧
      ((start (ascii ['d'])).perform (movedCursors ++ [.refreshCursors, .scanCursors])).any
        (fun scanned => (freshCursors scanned.server.db (ascii ['d'])).entries.map (·.2) =
          [⟨3, ascii ['c'], 4⟩, ⟨2, ascii ['e'], 5⟩]) = true := by
    decide +kernel
  obtain ⟨earlier, later⟩ := facts
  obtain ⟨w, first, held⟩ := (Option.any_eq_true _ _).mp earlier
  have sent := of_decide_eq_true held
  obtain ⟨scanned, run, held⟩ := (Option.any_eq_true _ _).mp later
  have cursors := of_decide_eq_true held
  rw [perform, Transition.perform_append, ← perform, first, Option.bind_some] at run
  obtain ⟨polled, poll, run⟩ := Option.bind_eq_some_iff.mp run
  obtain ⟨last, scan, done⟩ := Option.bind_eq_some_iff.mp run
  obtain rfl := Option.some.inj done
  have complete := cursors_complete first poll scan
  rw [cursors] at complete
  exact ⟨w, polled, last, first, poll, scan, sent, cursors, complete⟩

/-- The request of a browser that has been given the first event. -/
def resumeRequest : HttpRequest where
  method := methodGet
  path := ascii ['/', 'd', 'o', 'c', '/', 'd', '/', 's', 't', 'r', 'e', 'a', 'm']
  version := ascii ['H', 'T', 'T', 'P', '/', '1', '.', '1']
  headers := [(ascii ['L', 'a', 's', 't', '-', 'E', 'v', 'e', 'n', 't', '-', 'I', 'D'],
    ascii [' ', '1'])]
  body := []

theorem wellFormed_resumeRequest : resumeRequest.WellFormed := by
  constructor <;> decide +kernel

theorem path_resumeRequest : resumeRequest.path =
    ascii ['/', 'd', 'o', 'c', '/'] ++ ascii ['d'] ++
      ascii ['/', 's', 't', 'r', 'e', 'a', 'm'] := by
  decide

/-- The stream that the browser asks for with `resumeRequest`. -/
def resumeStream : StreamRequest (ascii ['d']) :=
  ⟨resumeRequest, wellFormed_resumeRequest, rfl, path_resumeRequest⟩

/-- The connection breaks within the frame of the second of two commits, which is the
editor's own, and acknowledged before the browser connects again. -/
def brokenFrame : List (SubscriptionAction (ascii ['d'])) :=
  [.serve (.put (.op insertA) []), .serve (.put (.op insertB) []), .serve .refresh,
    .serve .scan, .arrive 150, .acknowledge 2, .reconnect resumeStream, .serve .scan,
    .arrive 1000]

theorem reconnect_exactlyOnce_brokenFrame : ∃ (w : Subscription) (ops : List CommittedOp),
    (start (ascii ['d'])).perform brokenFrame = some w ∧ w.received.length = 3 ∧
      List.Forall₂ Incoming.Carries (freshOps 0 w.received).2 ops ∧
      ops.map bare = w.server.committed ∧ ∀ c, Frame.op c ∈ w.frames → 1 < c.version := by
  have facts : ((start (ascii ['d'])).perform brokenFrame).any (fun w =>
      w.received.length = 3 ∧ w.lastEventId = decimal 1 ∧
        (w.server.committed.filter fun c => 0 < c.version ∧ c.version ≤ w.serverVersion 0) =
          w.server.committed) = true := by
    decide +kernel
  obtain ⟨w, run, held⟩ := (Option.any_eq_true _ _).mp facts
  obtain ⟨three, id, all⟩ := of_decide_eq_true held
  obtain ⟨⟨ops, taken, read⟩, newer⟩ := @reconnect_exactlyOnce (ascii ['d']) 0 w (by decide) le_rfl
    brokenFrame run (by decide +kernel)
  exact ⟨w, ops, run, three, taken, read.trans all, newer 1 (by decide) id⟩

end Subscription

end DoomDraft.Server
