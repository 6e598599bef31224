import DoomDraft.Document.Replay
import DoomDraft.Foundation.Transition
import DoomDraft.Server.Registry

/-!
# Creating documents

`POST /docs` adds an id to the known documents and puts the registry of all of
them.  The value of the put is computed before the handler waits for the
commit, and puts of concurrent handlers commit in any order, also after their
handler has given up.
-/

namespace DoomDraft.Server

open Document Pancy

/-- The handler of a `POST /docs` that has submitted its put. -/
structure RegistryPost where
  id : ByteString
  /-- `known_docs_` when the handler computed the value of its put. -/
  docs : Finset ByteString
  serial : Nat
  /-- The version under which the value has been stored. -/
  version : Option Int
  /-- The status of the answer. -/
  status : Option Nat

/-- The value that the handler puts. -/
def RegistryPost.value (post : RegistryPost) : ByteString :=
  docsRegistryJson post.docs

/-- The put of the handler; `submit_put` sends it with the same serial until it
is answered. -/
def RegistryPost.request (post : RegistryPost) : PutRequest where
  serial := post.serial
  key := registryKey
  value := post.value

/-- The server with the handlers of `POST /docs`. -/
structure RegistryServer where
  /-- `known_docs_`. -/
  known : Finset ByteString
  nextSerialOffset : Nat
  db : PancyDb
  /-- The committed values of the registry, oldest first. -/
  values : List ByteString
  posts : List RegistryPost

/-- What may happen next. -/
inductive RegistryAction where
  /-- A `POST /docs` arrives. -/
  | post (body : ByteString)
  /-- The put of a handler is executed. -/
  | commit (n : Nat)
  /-- A handler gets the response to its put. -/
  | answer (n : Nat)
  /-- A handler has used up its attempts. -/
  | giveUp (n : Nat)
  /-- A request for a document arrives. -/
  | visit (docId : ByteString)
  /-- A put of another key is executed. -/
  | put (req : PutRequest)
  /-- The poller reads the registry from a replica that has executed it up to
  its `n`-th value. -/
  | poll (n : Nat)

namespace RegistryServer

/-- `run_http_server` on an empty database. -/
def start (docId : ByteString) : RegistryServer where
  known := {docId}
  nextSerialOffset := 0
  db := PancyDb.empty
  values := []
  posts := []

/-- `serial_step`. -/
def serialStep : Nat := 4096

/-- The branch of `handle_connection` for `POST /docs` up to the submission;
a body without a valid id is answered with status 400. -/
def acceptPost (w : RegistryServer) (body : ByteString) : RegistryServer :=
  match jsonGetString body (ascii ['i', 'd']) with
  | none => w
  | some doc =>
      if validDocId doc then
        let known := insert doc w.known
        let off := w.nextSerialOffset + 1
        { w with
          known := known
          nextSerialOffset := off
          posts := w.posts ++ [⟨doc, known, off * serialStep, none, none⟩] }
      else w

/-- The put of a handler is executed, which happens once. -/
def commitPost (w : RegistryServer) (n : Nat) : Option RegistryServer :=
  match w.posts[n]? with
  | some post =>
      if post.version.isNone then
        let (db, resp) := w.db.processPut post.request
        some { w with
          db := db
          values := w.values ++ [post.value]
          posts := w.posts.set n { post with version := some resp.version } }
      else none
  | none => none

/-- A handler answers with the version that `submit_put` has returned. -/
def answerPost (w : RegistryServer) (n : Nat) (returned : RegistryPost → Option Int) :
    Option RegistryServer :=
  match w.posts[n]? with
  | some post =>
      if post.status.isNone then
        (returned post).map fun (v : Int) =>
          let status := if v = 0 then 504 else 200
          { w with posts := w.posts.set n { post with status := some status } }
      else none
  | none => none

/-- One action; `none` when the action is not enabled. -/
def step (w : RegistryServer) : RegistryAction → Option RegistryServer
  | .post body => some (w.acceptPost body)
  | .commit n => w.commitPost n
  | .answer n => w.answerPost n RegistryPost.version
  | .giveUp n => w.answerPost n fun _ => some 0
  | .visit docId => if validDocId docId then some { w with known := insert docId w.known } else none
  | .put req =>
      if req.key = registryKey then none else some { w with db := (w.db.processPut req).1 }
  | .poll n => (w.values[n]?).map fun value => { w with known := w.known ∪ parseDocsRegistry value }

/-- Perform actions in order. -/
def perform (w : RegistryServer) (actions : List RegistryAction) : Option RegistryServer :=
  Transition.perform step w actions

/-- Every id whose POST has been answered with status 200 is in the value. -/
def Keeps (w : RegistryServer) (value : ByteString) : Prop :=
  ∀ post ∈ w.posts, post.status = some 200 → post.id ∈ parseDocsRegistry value

/-- The step does not commit a put that a later POST has overtaken: where a put
commits, the later POSTs that have been answered with status 200 are for ids that
its handler knew. -/
def NotOvertaken (w : RegistryServer) : RegistryAction → Prop
  | .commit n => ∀ post ∈ w.posts[n]?, ∀ later ∈ w.posts.drop (n + 1),
      later.status = some 200 → later.id ∈ post.docs
  | _ => True

instance (w : RegistryServer) : ∀ action, Decidable (w.NotOvertaken action)
  | .commit n => inferInstanceAs (Decidable (∀ post ∈ w.posts[n]?, _))
  | .post _ | .answer _ | .giveUp _ | .visit _ | .put _ | .poll _ => isTrue trivial

/-! ## The handlers -/

/-- The id and the known documents of each handler. -/
def contents (w : RegistryServer) : List (ByteString × Finset ByteString) :=
  w.posts.map fun post => (post.id, post.docs)

/-- A step on one handler leaves its id and its documents, and it does not take
back an answer. -/
structure Updates (w v : RegistryServer) : Prop where
  sameContents : v.contents = w.contents
  answers : ∀ post ∈ w.posts, post.status = some 200 →
    ∃ after ∈ v.posts, after.id = post.id ∧ after.status = some 200

theorem Updates.of_posts_eq {w v : RegistryServer} (same : v.posts = w.posts) : Updates w v where
  sameContents := by rw [contents, contents, same]
  answers post member answered := ⟨post, same ▸ member, rfl, answered⟩

theorem Updates.of_set {w v : RegistryServer} {n : Nat} {post after : RegistryPost}
    (found : w.posts[n]? = some post) (posts : v.posts = w.posts.set n after)
    (id : after.id = post.id) (docs : after.docs = post.docs)
    (answer : post.status = some 200 → after.status = some 200) : Updates w v := by
  obtain ⟨inside, atN⟩ := List.getElem?_eq_some_iff.mp found
  refine ⟨?_, ?_⟩
  · rw [contents, contents, posts]
    apply List.ext_getElem?
    intro i
    rw [List.getElem?_map, List.getElem?_map, List.getElem?_set]
    split
    · rename_i here
      rw [← here, found, Option.map_some, Option.map_some, id, docs]
    · rfl
  · intro other member answered
    obtain ⟨i, iLt, rfl⟩ := List.mem_iff_getElem.mp member
    by_cases here : i = n
    · subst here
      rw [atN] at answered ⊢
      refine ⟨after, ?_, id, answer answered⟩
      rw [posts]
      exact List.mem_set inside after
    · refine ⟨w.posts[i], ?_, rfl, answered⟩
      rw [posts, List.mem_iff_getElem]
      refine ⟨i, by simpa using iLt, ?_⟩
      rw [List.getElem_set_of_ne (Ne.symm here)]

theorem answerPost_cases {w v : RegistryServer} {n : Nat} {returned : RegistryPost → Option Int}
    (answered : w.answerPost n returned = some v) :
    v.known = w.known ∧ v.values = w.values ∧ Updates w v := by
  unfold answerPost at answered
  split at answered
  · rename_i post found
    split at answered
    · rename_i waiting
      obtain ⟨version, -, rfl⟩ := Option.map_eq_some_iff.mp answered
      refine ⟨rfl, rfl, Updates.of_set found rfl rfl rfl fun before => ?_⟩
      rw [before] at waiting
      contradiction
    · contradiction
  · contradiction

/-- What a step does to the handlers, the known documents and the committed
values. -/
theorem step_cases {w v : RegistryServer} {action : RegistryAction}
    (stepped : w.step action = some v) :
    (∃ body doc serial, action = .post body ∧ validDocId doc = true ∧
      v.known = insert doc w.known ∧ v.values = w.values ∧
      v.posts = w.posts ++ [⟨doc, insert doc w.known, serial, none, none⟩]) ∨
    (∃ n post, action = .commit n ∧ w.posts[n]? = some post ∧ v.known = w.known ∧
      v.values = w.values ++ [post.value] ∧ Updates w v) ∨
    (∃ found : Finset ByteString, (∀ n, action ≠ .commit n) ∧
      (∀ docId ∈ found, validDocId docId = true) ∧ v.known = w.known ∪ found ∧
      v.values = w.values ∧ Updates w v) := by
  cases action with
  | post body =>
      obtain rfl := Option.some.inj stepped
      unfold acceptPost
      split
      · refine Or.inr (Or.inr ⟨∅, by simp, by simp, by simp, rfl, Updates.of_posts_eq rfl⟩)
      · rename_i doc found
        split
        · rename_i valid
          exact Or.inl ⟨body, doc, _, rfl, valid, rfl, rfl, rfl⟩
        · exact Or.inr (Or.inr ⟨∅, by simp, by simp, by simp, rfl, Updates.of_posts_eq rfl⟩)
  | commit n =>
      simp only [step, commitPost] at stepped
      split at stepped
      · rename_i post found
        split at stepped
        · obtain rfl := Option.some.inj stepped
          refine Or.inr (Or.inl ⟨n, post, rfl, found, rfl, rfl, ?_⟩)
          exact Updates.of_set found rfl rfl rfl fun answered => answered
        · contradiction
      · contradiction
  | answer n =>
      obtain ⟨known, values, updates⟩ := answerPost_cases stepped
      exact Or.inr (Or.inr ⟨∅, by simp, by simp, by simpa using known, values, updates⟩)
  | giveUp n =>
      obtain ⟨known, values, updates⟩ := answerPost_cases stepped
      exact Or.inr (Or.inr ⟨∅, by simp, by simp, by simpa using known, values, updates⟩)
  | visit docId =>
      simp only [step] at stepped
      split at stepped
      · rename_i valid
        obtain rfl := Option.some.inj stepped
        refine Or.inr (Or.inr ⟨{docId}, by simp, by simpa using valid, ?_, rfl, ?_⟩)
        · simp only
          rw [Finset.insert_eq, Finset.union_comm]
        · exact Updates.of_posts_eq rfl
      · contradiction
  | put req =>
      simp only [step] at stepped
      split at stepped
      · contradiction
      · obtain rfl := Option.some.inj stepped
        exact Or.inr (Or.inr ⟨∅, by simp, by simp, by simp, rfl, Updates.of_posts_eq rfl⟩)
  | poll n =>
      obtain ⟨value, -, rfl⟩ := Option.map_eq_some_iff.mp stepped
      refine Or.inr (Or.inr ⟨parseDocsRegistry value, by simp, ?_, rfl, rfl, ?_⟩)
      · exact fun docId member => validDocId_of_mem_parseDocsRegistry member
      · exact Updates.of_posts_eq rfl

/-! ## Every run -/

/-- No known document has a quote in its id, and each handler knew its own id
and what the earlier handlers knew. -/
structure Invariant (w : RegistryServer) : Prop where
  clean : ∀ docId ∈ w.known, quote ∉ docId
  own : ∀ content ∈ w.contents, content.1 ∈ content.2 ∧ validDocId content.1 = true ∧
    content.2 ⊆ w.known
  ordered : w.contents.Pairwise fun earlier later => earlier.2 ⊆ later.2

theorem invariant_start {docId : ByteString} (clean : quote ∉ docId) : Invariant (start docId) where
  clean := by simpa [start] using clean
  own := by simp [start, contents]
  ordered := by simp [start, contents]

theorem Invariant.of_union {w v : RegistryServer} (inv : Invariant w) (found : Finset ByteString)
    (valid : ∀ docId ∈ found, validDocId docId = true) (known : v.known = w.known ∪ found)
    (contents : v.contents = w.contents) : Invariant v where
  clean docId member := by
    rw [known, Finset.mem_union] at member
    rcases member with old | new
    · exact inv.clean docId old
    · exact quote_not_mem_of_validDocId (valid docId new)
  own content member := by
    obtain ⟨own, validId, isKnown⟩ := inv.own content (contents ▸ member)
    exact ⟨own, validId, known ▸ isKnown.trans Finset.subset_union_left⟩
  ordered := by
    rw [contents]
    exact inv.ordered

theorem Invariant.step {w v : RegistryServer} {action : RegistryAction} (inv : Invariant w)
    (stepped : w.step action = some v) : Invariant v := by
  rcases step_cases stepped with ⟨_, doc, serial, -, valid, known, -, posts⟩ |
    ⟨n, post, -, -, known, -, updates⟩ | ⟨found, -, valid, known, -, updates⟩
  · have contents : v.contents = w.contents ++ [(doc, insert doc w.known)] := by
      rw [RegistryServer.contents, posts, List.map_append]
      rfl
    have grown : w.known ⊆ v.known := known ▸ Finset.subset_insert doc w.known
    refine ⟨?_, ?_, ?_⟩
    · intro docId member
      rw [known] at member
      rcases Finset.mem_insert.mp member with rfl | old
      · exact quote_not_mem_of_validDocId valid
      · exact inv.clean docId old
    · intro content member
      rw [contents] at member
      rcases List.mem_append.mp member with old | new
      · obtain ⟨own, validId, isKnown⟩ := inv.own content old
        exact ⟨own, validId, isKnown.trans grown⟩
      · obtain rfl := List.mem_singleton.mp new
        exact ⟨Finset.mem_insert_self doc w.known, valid, known ▸ Finset.Subset.refl _⟩
    · rw [contents, List.pairwise_append]
      refine ⟨inv.ordered, List.pairwise_singleton _ _, ?_⟩
      intro earlier before later last
      obtain rfl := List.mem_singleton.mp last
      exact (inv.own earlier before).2.2.trans (Finset.subset_insert doc w.known)
  · exact inv.of_union ∅ (by simp) (by simpa using known) updates.sameContents
  · exact inv.of_union found valid known updates.sameContents

theorem values_isPrefix {w v : RegistryServer} {action : RegistryAction}
    (stepped : w.step action = some v) : w.values <+: v.values := by
  rcases step_cases stepped with ⟨_, _, _, -, -, -, values, -⟩ | ⟨_, post, -, -, -, values, -⟩ |
    ⟨_, -, -, -, values, -⟩
  · exact values ▸ List.prefix_rfl
  · exact values ▸ List.prefix_append _ _
  · exact values ▸ List.prefix_rfl

/-- What a later state demands of a value, an earlier state demands too. -/
theorem Keeps.of_step {w v : RegistryServer} {action : RegistryAction} {value : ByteString}
    (stepped : w.step action = some v) (keeps : v.Keeps value) : w.Keeps value := by
  intro post member answered
  have updated : Updates w v → post.id ∈ parseDocsRegistry value := by
    intro updates
    obtain ⟨after, afterMember, same, afterAnswered⟩ := updates.answers post member answered
    exact same ▸ keeps after afterMember afterAnswered
  rcases step_cases stepped with ⟨_, _, _, -, -, -, -, posts⟩ | ⟨_, _, -, -, -, -, updates⟩ |
    ⟨_, -, -, -, -, updates⟩
  · exact keeps post (posts ▸ List.mem_append_left _ member) answered
  · exact updated updates
  · exact updated updates

theorem Invariant.ofPost {w : RegistryServer} (inv : Invariant w) {post : RegistryPost}
    (member : post ∈ w.posts) :
    post.id ∈ post.docs ∧ validDocId post.id = true ∧ post.docs ⊆ w.known :=
  inv.own (post.id, post.docs) (List.mem_map_of_mem member)

/-- A handler knew the id of every POST that did not come later. -/
theorem Invariant.mem_docs {w : RegistryServer} (inv : Invariant w) {m n : Nat}
    {earlier post : RegistryPost} (le : m ≤ n) (foundEarlier : w.posts[m]? = some earlier)
    (found : w.posts[n]? = some post) : earlier.id ∈ post.docs := by
  have own := (inv.ofPost (List.mem_of_getElem? foundEarlier)).1
  rcases Nat.eq_or_lt_of_le le with rfl | less
  · obtain rfl := Option.some.inj (foundEarlier.symm.trans found)
    exact own
  · obtain ⟨mLt, rfl⟩ := List.getElem?_eq_some_iff.mp foundEarlier
    obtain ⟨nLt, rfl⟩ := List.getElem?_eq_some_iff.mp found
    have ordered := List.pairwise_map.mp inv.ordered
    exact List.pairwise_iff_getElem.mp ordered m n mLt nLt less own

/-- What is read from the value that a handler puts. -/
theorem Invariant.mem_value_iff {w : RegistryServer} (inv : Invariant w) {post : RegistryPost}
    (member : post ∈ w.posts) (docId : ByteString) :
    docId ∈ parseDocsRegistry post.value ↔ docId ∈ post.docs ∧ validDocId docId = true := by
  apply mem_parseDocsRegistry_docsRegistryJson
  exact fun d known => inv.clean d ((inv.ofPost member).2.2 known)

/-- The value that a step commits keeps the ids that have been answered for
exactly if no later POST has overtaken the step. -/
theorem Invariant.keeps_iff {w v : RegistryServer} {action : RegistryAction} (inv : Invariant w)
    (stepped : w.step action = some v) :
    (∀ value ∈ v.values.drop w.values.length, w.Keeps value) ↔ w.NotOvertaken action := by
  rcases step_cases stepped with ⟨body, _, _, rfl, -, -, values, -⟩ |
    ⟨n, post, rfl, found, -, values, -⟩ | ⟨_, noCommit, -, -, values, -⟩
  · simp [values, NotOvertaken]
  · have member := List.mem_of_getElem? found
    simp only [values, List.drop_left, List.forall_mem_singleton, Keeps, NotOvertaken,
      inv.mem_value_iff member]
    constructor
    · intro all other isFound later after answered
      obtain rfl := Option.some.inj (found.symm.trans isFound)
      exact (all later (List.mem_of_mem_drop after) answered).1
    · intro notOvertaken other otherMember answered
      obtain ⟨m, foundOther⟩ := List.mem_iff_getElem?.mp otherMember
      refine ⟨?_, (inv.ofPost otherMember).2.1⟩
      rcases Nat.lt_or_ge n m with after | notAfter
      · refine notOvertaken post found other ?_ answered
        rw [List.mem_iff_getElem?]
        refine ⟨m - (n + 1), ?_⟩
        rw [List.getElem?_drop, Nat.add_sub_cancel' after, foundOther]
      · exact inv.mem_docs notAfter foundOther found
  · have nothing : w.NotOvertaken action := by
      cases action with
      | commit n => exact absurd rfl (noCommit n)
      | _ => trivial
    simp [values, nothing]

/-- Acknowledged documents, for every run: every value of the registry that is
committed after a POST has been answered with status 200 contains the id of the
POST, exactly if no put is committed that a later POST has overtaken. -/
theorem acknowledged_iff {docId : ByteString} (clean : quote ∉ docId)
    {actions : List RegistryAction} {w : RegistryServer}
    (run : (start docId).perform actions = some w) :
    (∀ t middle, (start docId).perform (actions.take t) = some middle →
      ∀ value ∈ w.values.drop middle.values.length, ∀ post ∈ middle.posts,
        post.status = some 200 → post.id ∈ parseDocsRegistry value) ↔
      Transition.Permitted RegistryServer.step NotOvertaken (start docId) actions := by
  refine (Transition.permitted_iff_forall_outputs RegistryServer.values Keeps (J := Invariant)
    ?_ ?_ ?_ ?_ (invariant_start clean) run).symm
  · exact fun _ _ _ inv stepped => inv.step stepped
  · exact fun _ _ _ stepped => values_isPrefix stepped
  · exact fun _ _ _ _ stepped keeps => Keeps.of_step stepped keeps
  · exact fun _ _ _ inv stepped => inv.keeps_iff stepped

/-- The body of a POST for the document whose id is one character. -/
def bodyFor (char : Char) : ByteString :=
  ascii ['\x7b', '"', 'i', 'd', '"', ':', '"', char, '"', '\x7d']

/-- Two documents are created one after the other. -/
def oneByOne : List RegistryAction :=
  [.post (bodyFor 'a'), .commit 0, .answer 0, .post (bodyFor 'b'), .commit 1, .answer 1]

/-- Two documents are created at the same time.  The put of the second POST
commits and is answered first, and then the put of the first POST commits. -/
def overtaken : List RegistryAction :=
  [.post (bodyFor 'a'), .post (bodyFor 'b'), .commit 1, .answer 1, .commit 0]

theorem acknowledged_iff_oneByOne : ∃ w, (start (ascii ['m'])).perform oneByOne = some w ∧
    w.posts.map RegistryPost.status = [some 200, some 200] ∧
    (∀ t middle, (start (ascii ['m'])).perform (oneByOne.take t) = some middle →
      ∀ value ∈ w.values.drop middle.values.length, ∀ post ∈ middle.posts,
        post.status = some 200 → post.id ∈ parseDocsRegistry value) := by
  have facts : ((start (ascii ['m'])).perform oneByOne).any (fun w =>
      w.posts.map RegistryPost.status = [some 200, some 200]) = true := by
    decide +kernel
  obtain ⟨w, run, statuses⟩ := (Option.any_eq_true _ _).mp facts
  exact ⟨w, run, of_decide_eq_true statuses,
    (acknowledged_iff (by decide) run).mpr (by decide +kernel)⟩

/-- The registry that is committed last does not have the second document. -/
theorem overtaken_loses_document : ¬ ∀ (docId : ByteString) (actions : List RegistryAction)
    (w : RegistryServer), (start docId).perform actions = some w →
      ∀ t middle, (start docId).perform (actions.take t) = some middle →
        ∀ value ∈ w.values.drop middle.values.length, ∀ post ∈ middle.posts,
          post.status = some 200 → post.id ∈ parseDocsRegistry value := by
  intro always
  have facts : ((start (ascii ['m'])).perform (overtaken.take 4)).any (fun middle =>
      middle.values.length = 1 ∧ ∃ post ∈ middle.posts,
        post.status = some 200 ∧ post.id = ascii ['b']) = true := by
    decide +kernel
  obtain ⟨middle, reached, answered⟩ := (Option.any_eq_true _ _).mp facts
  obtain ⟨length, post, member, status, id⟩ := of_decide_eq_true answered
  -- the handler of the first POST did not know the second document
  have values : ((start (ascii ['m'])).perform overtaken).map RegistryServer.values =
      some [docsRegistryJson {ascii ['b'], ascii ['a'], ascii ['m']},
        docsRegistryJson {ascii ['a'], ascii ['m']}] := rfl
  obtain ⟨w, run, valuesEq⟩ := Option.map_eq_some_iff.mp values
  have kept := always _ _ w run 4 middle reached (docsRegistryJson {ascii ['a'], ascii ['m']})
    (by simp [valuesEq, length]) post member status
  rw [id, mem_parseDocsRegistry_docsRegistryJson (by decide)] at kept
  exact absurd kept.1 (by decide)

end RegistryServer

end DoomDraft.Server
