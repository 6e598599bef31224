import DoomDraft.Server.Stream

/-!
# What a stream delivers

A stream emits the commits that are newer than the last one it has seen.  This
is complete as long as no scan finds a newer commit in the cache while an older
one that it has not emitted is missing there.
-/

namespace DoomDraft.Server.DocServer

open Document Pancy

/-- The scan passes over a commit: one that the stream has not seen is not in
the cache, and a newer one is. -/
def skips (w : DocServer) : StreamAction → Bool
  | .scan => ∃ c ∈ w.committed, w.lastSeen < c.version ∧
      (∃ d ∈ w.cache.bareOps, c.version < d.version) ∧ c ∉ w.cache.bareOps
  | _ => false

/-- The server of document `docId` is sound, and its stream has emitted all
commits since `resumeFrom` up to the last one it has seen. -/
structure Sound (docId : ByteString) (resumeFrom : Int) (w : DocServer) : Prop where
  named : w.docId = docId
  versioned : w.db.WellVersioned
  reads : readOps w.db docId = w.committed
  cached : ∀ c ∈ w.cache.bareOps, c ∈ w.committed
  cacheSorted : KeySorted CommittedOp.version w.cache.bareOps
  newest : ∀ c ∈ w.cache.bareOps, c.version ≤ w.cache.version
  noted : ∀ c ∈ w.handlers, bare c ∈ w.committed
  started : resumeFrom ≤ w.lastSeen
  /-- What the stream has seen is where it resumed or a commit. -/
  known : w.lastSeen = resumeFrom ∨ ∃ c ∈ w.committed, c.version = w.lastSeen
  sent : w.emitted.map bare =
    w.committed.filter fun c => resumeFrom < c.version ∧ c.version ≤ w.lastSeen

variable {docId : ByteString} {resumeFrom : Int} {w : DocServer}

theorem sound_start (docId : ByteString) (resumeFrom : Int) :
    Sound docId resumeFrom (start docId resumeFrom) where
  named := rfl
  versioned := PancyDb.wellVersioned_empty
  reads := rfl
  cached := by simp [start, PerDocCache.empty, PerDocCache.bareOps]
  cacheSorted := List.Pairwise.nil
  newest := by simp [start, PerDocCache.empty, PerDocCache.bareOps]
  noted := by simp [start]
  started := le_rfl
  known := Or.inl rfl
  sent := rfl

theorem Sound.committed_sorted (sound : Sound docId resumeFrom w) :
    KeySorted CommittedOp.version w.committed := by
  rw [← sound.reads]
  exact keySorted_readOps sound.versioned docId

theorem Sound.committed_lt (sound : Sound docId resumeFrom w) {c : CommittedOp}
    (member : c ∈ w.committed) : c.version < w.db.nextVersion := by
  rw [← sound.reads] at member
  obtain ⟨key, cell, found, read⟩ := mem_readOps.mp member
  rw [readCell_version read]
  exact (sound.versioned.bounds key cell found).2

/-! ## Puts -/

/-- A put that the document does not read. -/
theorem Sound.put_unread (sound : Sound docId resumeFrom w) (req : PutRequest)
    (unread : ∀ cell, readCell docId req.key cell = none) :
    Sound docId resumeFrom { w with db := (w.db.processPut req).1 } := by
  have reads : readOps (w.db.processPut req).1 docId = w.committed := by
    rcases sound.versioned.processPut_cases req with same | written
    · rw [same]
      exact sound.reads
    · rw [written, readOps_write sound.versioned, unread, Option.toList_none, List.append_nil,
        filter_readOps_eq_self sound.versioned fun cell _ => unread cell, sound.reads]
  exact { sound with versioned := sound.versioned.processPut req, reads := reads }

/-- A put of an operation of the document. -/
theorem Sound.put_own (sound : Sound docId resumeFrom w) {put : OpPut} (own : put.docId = docId)
    (free : w.db.db.find? put.key = none) (label : ByteString) :
    Sound docId resumeFrom { w with
      db := (w.db.processPut put.request).1
      committed := w.committed ++ [w.commitOf put]
      handlers := w.handlers ++ [{ w.commitOf put with clientIdLabel := label }] } := by
  have versioned := sound.versioned
  have version : (w.commitOf put).version = w.db.nextVersion :=
    versioned.processPut_version put.serial put.key (serialize put.op)
  have stored : w.db.nextVersion ≠ nonexistentVersion := versioned.positive.ne'
  have reads : readOps (w.db.processPut put.request).1 docId = w.committed ++ [w.commitOf put] := by
    have kept := @filter_readOps_eq_self _ versioned docId put.key fun cell found => by
      rw [free] at found
      contradiction
    rw [OpPut.request, versioned.processPut_any, readOps_write versioned, kept,
      put.readCell_key docId stored, if_pos own, sound.reads, Option.toList_some]
    rw [← version]
    rfl
  -- The new commit is newer than everything the stream has seen.
  have unseen :
      ¬ (resumeFrom < (w.commitOf put).version ∧ (w.commitOf put).version ≤ w.lastSeen) := by
    rintro ⟨above, below⟩
    rcases sound.known with same | ⟨c, member, same⟩
    · omega
    · have older := sound.committed_lt member
      omega
  constructor
  · exact sound.named
  · exact versioned.processPut put.request
  · exact reads
  · exact fun c member => List.mem_append_left _ (sound.cached c member)
  · exact sound.cacheSorted
  · exact sound.newest
  · intro c member
    rcases List.mem_append.mp member with old | new
    · exact List.mem_append_left _ (sound.noted c old)
    · rw [List.mem_singleton.mp new]
      exact List.mem_append_right _ List.mem_cons_self
  · exact sound.started
  · refine sound.known.imp_right ?_
    rintro ⟨c, member, same⟩
    exact ⟨c, List.mem_append_left _ member, same⟩
  · rw [List.filter_append, List.filter_singleton]
    simp [unseen, sound.sent]

/-! ## The cache -/

theorem Sound.noteLabel (sound : Sound docId resumeFrom w) (cidHash : Nat) (label : ByteString) :
    Sound docId resumeFrom { w with cache := w.cache.noteClientLabel cidHash label } := by
  have ops := w.cache.bareOps_noteClientLabel cidHash label
  have version := w.cache.version_noteClientLabel cidHash label
  refine { sound with cached := ?_, cacheSorted := ?_, newest := ?_ }
  · rw [ops]
    exact sound.cached
  · rw [ops]
    exact sound.cacheSorted
  · rw [ops, version]
    exact sound.newest

theorem Sound.noteCommitted (sound : Sound docId resumeFrom w) {c : CommittedOp}
    (member : c ∈ w.handlers) {handlers : List CommittedOp}
    (rest : ∀ other ∈ handlers, other ∈ w.handlers) :
    Sound docId resumeFrom
      { w with cache := w.cache.noteCommitted c, handlers := handlers } := by
  have noted : ∀ other ∈ handlers, bare other ∈ w.committed :=
    fun other inRest => sound.noted other (rest other inRest)
  rcases w.cache.bareOps_noteCommitted c with ⟨ops, version⟩ | ⟨newer, -, ops, version⟩
  · refine { sound with cached := ?_, cacheSorted := ?_, newest := ?_, noted := noted }
    · rw [ops]
      exact sound.cached
    · rw [ops]
      exact sound.cacheSorted
    · rw [ops, version]
      exact sound.newest
  · refine { sound with cached := ?_, cacheSorted := ?_, newest := ?_, noted := noted }
    · rw [ops]
      intro other inOps
      rcases List.mem_append.mp inOps with old | new
      · exact sound.cached other old
      · rw [List.mem_singleton.mp new]
        exact sound.noted c member
    · rw [ops]
      refine List.pairwise_append.mpr ⟨sound.cacheSorted, List.pairwise_singleton _ _, ?_⟩
      intro first firstMem second secondMem
      rw [List.mem_singleton.mp secondMem]
      exact (sound.newest first firstMem).trans_lt newer
    · rw [ops, version]
      intro other inOps
      rcases List.mem_append.mp inOps with old | new
      · exact (sound.newest other old).trans newer.le
      · rw [List.mem_singleton.mp new]
        exact le_rfl

/-- Every commit is in the cache. -/
def CaughtUp (w : DocServer) : Prop :=
  w.cache.bareOps = w.committed

theorem Sound.bareOps_refresh (sound : Sound docId resumeFrom w) :
    (w.cache.refreshOpsFromDb w.db w.docId).bareOps = w.committed ∧
      ∀ c ∈ w.committed, c.version ≤ (w.cache.refreshOpsFromDb w.db w.docId).version := by
  have cached := sound.cached
  rw [← sound.reads, ← sound.named] at cached ⊢
  exact PerDocCache.bareOps_refreshOpsFromDb sound.versioned cached

theorem Sound.refresh (sound : Sound docId resumeFrom w) :
    Sound docId resumeFrom { w with cache := w.cache.refreshOpsFromDb w.db w.docId } := by
  obtain ⟨ops, newest⟩ := sound.bareOps_refresh
  refine { sound with cached := ?_, cacheSorted := ?_, newest := ?_ }
  · rw [ops]
    exact fun _ => id
  · rw [ops]
    exact sound.committed_sorted
  · rw [ops]
    exact newest

/-! ## Scans -/

/-- A scan that passes over nothing emits the commits up to the newest cached
one. -/
theorem Sound.scan (sound : Sound docId resumeFrom w) (care : w.skips .scan = false) :
    Sound docId resumeFrom { w with
      lastSeen := (scanOps w.lastSeen w.cache.ops).1
      emitted := w.emitted ++ (scanOps w.lastSeen w.cache.ops).2 } := by
  have complete : ∀ c ∈ w.committed, w.lastSeen < c.version →
      ∀ d ∈ w.cache.bareOps, c.version < d.version → c ∈ w.cache.bareOps := by
    simpa [skips] using care
  obtain ⟨monotone, covers⟩ := fst_scanOps_ge w.lastSeen w.cache.ops
  have seenMem := fst_scanOps_mem w.lastSeen w.cache.ops
  have opsSorted := sound.cacheSorted
  rw [KeySorted, PerDocCache.bareOps, List.pairwise_map] at opsSorted
  have emitted := snd_scanOps opsSorted w.lastSeen
  have emittedBare : (scanOps w.lastSeen w.cache.ops).2.map bare =
      w.cache.bareOps.filter (w.lastSeen < ·.version) := by
    rw [emitted, PerDocCache.bareOps, List.filter_map]
    rfl
  have bareCovers : ∀ c ∈ w.cache.bareOps, c.version ≤ (scanOps w.lastSeen w.cache.ops).1 := by
    intro c member
    obtain ⟨d, inOps, rfl⟩ := List.mem_map.mp member
    exact covers d inOps
  refine { sound with started := sound.started.trans monotone, known := ?_, sent := ?_ }
  · rcases seenMem with same | ⟨c, member, version⟩
    · rw [same]
      exact sound.known
    · exact Or.inr ⟨bare c, sound.cached _ (List.mem_map_of_mem member), version⟩
  · rw [List.map_append, sound.sent, emittedBare]
    have sorted := sound.committed_sorted
    refine ((sorted.filter _).eq_of_mem_iff ?_ ?_).symm
    · refine List.pairwise_append.mpr
        ⟨sorted.filter _, sound.cacheSorted.filter _, ?_⟩
      intro first firstMem second secondMem
      have below := of_decide_eq_true (List.mem_filter.mp firstMem).2
      have above := of_decide_eq_true (List.mem_filter.mp secondMem).2
      exact below.2.trans_lt above
    · intro c
      simp only [List.mem_append, List.mem_filter, decide_eq_true_eq]
      constructor
      · rintro ⟨member, after, upTo⟩
        rcases le_or_gt c.version w.lastSeen with seen | unseen
        · exact Or.inl ⟨member, after, seen⟩
        · refine Or.inr ⟨?_, unseen⟩
          rcases seenMem with same | ⟨d, inOps, version⟩
          · omega
          · have bareMem : bare d ∈ w.cache.bareOps := List.mem_map_of_mem inOps
            rw [← version] at upTo
            rcases lt_or_eq_of_le upTo with less | equal
            · exact complete c member unseen (bare d) bareMem less
            · rw [sorted.injOn member (sound.cached _ bareMem) equal]
              exact bareMem
      · rintro (⟨member, after, upTo⟩ | ⟨inCache, unseen⟩)
        · exact ⟨member, after, upTo.trans monotone⟩
        · exact ⟨sound.cached c inCache, sound.started.trans_lt unseen, bareCovers c inCache⟩

/-! ## Runs -/

variable {next : DocServer} {action : StreamAction}

/-- One action. -/
theorem Sound.step (sound : Sound docId resumeFrom w) (care : w.skips action = false)
    (stepped : w.step action = some next) : Sound docId resumeFrom next := by
  cases action with
  | put stored label =>
      cases stored with
      | op put =>
          simp only [DocServer.step] at stepped
          split at stepped
          · rename_i different
            rw [sound.named] at different
            obtain rfl := Option.some.inj stepped
            exact sound.put_unread put.request (put.readCell_eq_none different)
          · rename_i own
            split at stepped
            · contradiction
            · rename_i free
              rw [sound.named] at own
              obtain rfl := Option.some.inj stepped
              exact sound.put_own (not_not.mp own) (Option.not_isSome_iff_eq_none.mp free) label
      | other req notOp =>
          obtain rfl := Option.some.inj stepped
          exact sound.put_unread req fun _ => readCell_of_not_isOpKey notOp
  | noteLabel cidHash label =>
      obtain rfl := Option.some.inj stepped
      exact sound.noteLabel cidHash label
  | noteCommitted position =>
      simp only [DocServer.step] at stepped
      split at stepped
      · contradiction
      · rename_i c found
        obtain rfl := Option.some.inj stepped
        exact sound.noteCommitted (List.mem_of_getElem? found) fun _ => List.mem_of_mem_eraseIdx
  | refresh =>
      obtain rfl := Option.some.inj stepped
      exact sound.refresh
  | scan =>
      obtain rfl := Option.some.inj stepped
      exact sound.scan care

/-- What the actions other than commits of the document leave alone. -/
theorem Sound.quiet_step (sound : Sound docId resumeFrom w)
    (quiet : action.commitsTo docId = false) (stepped : w.step action = some next) :
    next.committed = w.committed ∧ w.lastSeen ≤ next.lastSeen ∧
      (w.CaughtUp → next.CaughtUp) := by
  cases action with
  | put stored label =>
      cases stored with
      | op put =>
          have different : put.docId ≠ w.docId := by
            rw [sound.named]
            exact of_decide_eq_false quiet
          simp only [DocServer.step, if_pos different] at stepped
          obtain rfl := Option.some.inj stepped
          exact ⟨rfl, le_rfl, id⟩
      | other req notOp =>
          obtain rfl := Option.some.inj stepped
          exact ⟨rfl, le_rfl, id⟩
  | noteLabel cidHash label =>
      obtain rfl := Option.some.inj stepped
      exact ⟨rfl, le_rfl, (w.cache.bareOps_noteClientLabel cidHash label).trans⟩
  | noteCommitted position =>
      simp only [DocServer.step] at stepped
      split at stepped
      · contradiction
      · rename_i c found
        obtain rfl := Option.some.inj stepped
        refine ⟨rfl, le_rfl, ?_⟩
        intro caughtUp
        rcases w.cache.bareOps_noteCommitted c with ⟨ops, -⟩ | ⟨-, missing, -⟩
        · exact ops.trans caughtUp
        · rw [caughtUp] at missing
          exact absurd (sound.noted c (List.mem_of_getElem? found)) missing
  | refresh =>
      obtain rfl := Option.some.inj stepped
      exact ⟨rfl, le_rfl, fun _ => sound.bareOps_refresh.1⟩
  | scan =>
      obtain rfl := Option.some.inj stepped
      exact ⟨rfl, (fst_scanOps_ge w.lastSeen w.cache.ops).1, id⟩

/-- The stream has seen every commit that it is to emit. -/
def HasSeenAll (resumeFrom : Int) (w : DocServer) : Prop :=
  ∀ c ∈ w.committed, resumeFrom < c.version → c.version ≤ w.lastSeen

theorem CaughtUp.hasSeenAll_scan (caughtUp : w.CaughtUp) (stepped : w.step .scan = some next) :
    HasSeenAll resumeFrom next := by
  obtain rfl := Option.some.inj stepped
  intro c member _
  have cached : c ∈ w.cache.bareOps := by
    rw [caughtUp]
    exact member
  obtain ⟨d, inOps, rfl⟩ := List.mem_map.mp cached
  exact (fst_scanOps_ge w.lastSeen w.cache.ops).2 d inOps

theorem Sound.sent_all (sound : Sound docId resumeFrom w) (seen : HasSeenAll resumeFrom w) :
    w.emitted.map bare = w.committed.filter (resumeFrom < ·.version) := by
  rw [sound.sent]
  apply List.filter_congr
  intro c member
  have upTo := seen c member
  simp only [decide_eq_decide]
  exact and_iff_left_of_imp upTo

/-- What a quiet action preserves in sound servers holds after quiet runs. -/
theorem Sound.run_quiet {P : DocServer → Prop}
    (kept : ∀ state next : DocServer, next.committed = state.committed →
      state.lastSeen ≤ next.lastSeen → (state.CaughtUp → next.CaughtUp) → P state → P next)
    {actions : List StreamAction} {final : DocServer} (sound : Sound docId resumeFrom w)
    (holds : P w)
    (careful : Transition.Permitted DocServer.step (fun state action => state.skips action = false)
      w actions)
    (quiet : ∀ action ∈ actions, action.commitsTo docId = false)
    (run : w.perform actions = some final) : Sound docId resumeFrom final ∧ P final := by
  refine Transition.perform_induction (P := fun state => Sound docId resumeFrom state ∧ P state) ?_
    ⟨sound, holds⟩ (careful.and_forall quiet) run
  rintro state action next ⟨soundNow, holdsNow⟩ ⟨care, silent⟩ stepped
  obtain ⟨committed, lastSeen, caughtUp⟩ := soundNow.quiet_step silent stepped
  exact ⟨soundNow.step care stepped, kept state next committed lastSeen caughtUp holdsNow⟩

/-- Completeness in the runs without a scan that passes over a commit: once a
refresh and then a scan have run after the last commit, the stream has emitted
exactly the commits newer than where it resumed, in the order of their
versions. -/
theorem stream_completeness {before middle after : List StreamAction}
    (run : (start docId resumeFrom).perform (before ++ .refresh :: (middle ++ .scan :: after)) =
      some w)
    (quiet : ∀ action ∈ middle ++ after, action.commitsTo docId = false)
    (careful : Transition.Permitted step (fun state action => state.skips action = false)
      (start docId resumeFrom) (before ++ .refresh :: (middle ++ .scan :: after))) :
    w.emitted.map bare = w.committed.filter (resumeFrom < ·.version) ∧
      KeySorted CommittedOp.version w.emitted := by
  rw [List.forall_mem_append] at quiet
  -- The state before the refresh.
  rw [perform, Transition.perform_append] at run
  obtain ⟨first, firstRun, run⟩ := Option.bind_eq_some_iff.mp run
  obtain ⟨firstCareful, careful⟩ := careful.append
  have careful := careful first firstRun
  have firstSound : Sound docId resumeFrom first :=
    Transition.perform_induction (fun _ _ _ sound care stepped => sound.step care stepped)
      (sound_start docId resumeFrom) firstCareful firstRun
  -- The refresh, and the quiet run up to the scan.
  obtain ⟨second, refreshed, run⟩ := Option.bind_eq_some_iff.mp run
  have secondSound := firstSound.step careful.1 refreshed
  have caughtUp : second.CaughtUp := by
    obtain rfl := Option.some.inj refreshed
    exact firstSound.bareOps_refresh.1
  have careful := careful.2 second refreshed
  rw [Transition.perform_append] at run
  obtain ⟨third, thirdRun, run⟩ := Option.bind_eq_some_iff.mp run
  obtain ⟨thirdCareful, careful⟩ := careful.append
  have careful := careful third thirdRun
  obtain ⟨thirdSound, caughtUp⟩ := secondSound.run_quiet
    (fun _ _ _ _ kept => kept) caughtUp thirdCareful quiet.1 thirdRun
  -- The scan, and the quiet run after it.
  obtain ⟨fourth, scanned, run⟩ := Option.bind_eq_some_iff.mp run
  have fourthSound := thirdSound.step careful.1 scanned
  obtain ⟨sound, seen⟩ := fourthSound.run_quiet (P := HasSeenAll resumeFrom)
    (by
      intro state next committed lastSeen _ seen c member after
      rw [committed] at member
      exact (seen c member after).trans lastSeen)
    (caughtUp.hasSeenAll_scan scanned) (careful.2 fourth scanned) quiet.2 run
  have sent := sound.sent_all seen
  refine ⟨sent, ?_⟩
  have sorted := sound.committed_sorted.filter (resumeFrom < ·.version)
  rw [← sent, KeySorted, List.pairwise_map] at sorted
  exact sorted

/-- Two commits noted in order, with a scan between the notes. -/
def notedInOrder : List StreamAction :=
  [.noteLabel 1 (ascii ['c']), .put (.op insertA) (ascii ['c']), .put (.op insertB) [],
    .noteCommitted 0, .scan, .noteCommitted 0]

/-- The handler of the second commit resumes first, and the stream scans before
the handler of the first one does. -/
def notedOutOfOrder : List StreamAction :=
  [.put (.op insertA) (ascii ['c']), .put (.op insertB) [], .noteCommitted 1, .scan]

theorem stream_completeness_notedInOrder : ∃ w : DocServer,
    (start (ascii ['d']) 0).perform (notedInOrder ++ .refresh :: ([] ++ .scan :: [])) = some w ∧
      w.emitted.length = 2 ∧ w.emitted.map bare = w.committed.filter (0 < ·.version) ∧
      KeySorted CommittedOp.version w.emitted := by
  have facts : ((start (ascii ['d']) 0).perform
      (notedInOrder ++ .refresh :: ([] ++ .scan :: []))).any
        (fun w => w.emitted.length = 2) = true := by decide +kernel
  obtain ⟨w, run, two⟩ := (Option.any_eq_true _ _).mp facts
  exact ⟨w, run, of_decide_eq_true two, stream_completeness run (by simp) (by decide +kernel)⟩

/-- A commit that is noted behind a newer one is never emitted. -/
theorem notedOutOfOrder_incomplete : ¬ ∀ (docId : ByteString) (resumeFrom : Int)
    (before middle after : List StreamAction) (w : DocServer),
    (start docId resumeFrom).perform (before ++ .refresh :: (middle ++ .scan :: after)) = some w →
      (∀ action ∈ middle ++ after, action.commitsTo docId = false) →
      w.emitted.map bare = w.committed.filter (resumeFrom < ·.version) ∧
        KeySorted CommittedOp.version w.emitted := by
  intro complete
  have facts : ((start (ascii ['d']) 0).perform
      (notedOutOfOrder ++ .refresh :: ([] ++ .scan :: []))).any
        (fun w => w.emitted.map bare ≠ w.committed.filter (0 < ·.version)) = true := by
    decide +kernel
  obtain ⟨w, run, different⟩ := (Option.any_eq_true _ _).mp facts
  exact of_decide_eq_true different
    (complete (ascii ['d']) 0 notedOutOfOrder [] [] w run (by simp)).1

end DoomDraft.Server.DocServer
