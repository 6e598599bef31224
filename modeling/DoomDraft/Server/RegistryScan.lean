import DoomDraft.Foundation.Transition
import DoomDraft.Server.Registry

/-!
# The loop that reads the registry

The loop keeps an index into the stored text.  Each round moves it on, by one byte
or behind the next quote, so the loop ends with the ids that `parseDocsRegistry`
takes from the text, and for the registry of a set of documents these are the set.
-/

namespace DoomDraft.Server

open Transition

/-- The variables of the loop of `parse_docs_registry`. -/
structure RegistryScan where
  i : Nat
  out : Finset ByteString

/-- `j` behind the inner loop: the next quote from `start` on, or the end. -/
def nextQuote (body : ByteString) (start : Nat) : Nat :=
  start + ((body.drop start).takeWhile (· ≠ quote)).length

/-- A round of the loop of `parse_docs_registry`; none is left at the end. -/
def scanRegistry (body : ByteString) (scan : RegistryScan) : Option RegistryScan :=
  if scan.i < body.length then
    if body[scan.i]? = some quote then
      let j := nextQuote body (scan.i + 1)
      let d := (body.drop (scan.i + 1)).take (j - scan.i - 1)
      some ⟨j + 1, if j < body.length ∧ scan.i + 1 < j ∧ validDocId d then insert d scan.out
        else scan.out⟩
    else some ⟨scan.i + 1, scan.out⟩
  else none

/-- What the loop has read, with what is still to be read. -/
def RegistryScan.result (body : ByteString) (scan : RegistryScan) : Finset ByteString :=
  scan.out ∪ parseDocsRegistry (body.drop scan.i)

/-- A round moves the index on. -/
theorem index_scanRegistry {body : ByteString} {scan next : RegistryScan}
    (stepped : scanRegistry body scan = some next) :
    scan.i < body.length ∧ scan.i < next.i := by
  unfold scanRegistry at stepped
  split at stepped
  · rename_i inside
    refine ⟨inside, ?_⟩
    split at stepped
    · obtain rfl := Option.some.inj stepped
      dsimp only [nextQuote]
      omega
    · obtain rfl := Option.some.inj stepped
      exact Nat.lt_succ_self _
  · contradiction

/-- A round changes nothing of the result. -/
theorem result_scanRegistry {body : ByteString} {scan next : RegistryScan}
    (stepped : scanRegistry body scan = some next) : next.result body = scan.result body := by
  have inside := (index_scanRegistry stepped).1
  unfold scanRegistry at stepped
  rw [if_pos inside, List.getElem?_eq_getElem inside] at stepped
  have dropped := List.drop_eq_getElem_cons inside
  generalize body[scan.i] = c at stepped dropped
  unfold RegistryScan.result
  split at stepped
  · rename_i atQuote
    obtain rfl := Option.some.inj atQuote
    obtain rfl := Option.some.inj stepped
    obtain ⟨d, dEq⟩ : ∃ d, d = (body.drop (scan.i + 1)).takeWhile (· ≠ quote) := ⟨_, rfl⟩
    have jEq : nextQuote body (scan.i + 1) = scan.i + 1 + d.length := by rw [dEq]; rfl
    have between : (body.drop (scan.i + 1)).take (scan.i + 1 + d.length - scan.i - 1) = d := by
      have lengthEq : scan.i + 1 + d.length - scan.i - 1 = d.length := by omega
      rw [lengthEq, dEq]
      exact (List.prefix_iff_eq_take.mp (List.takeWhile_prefix _)).symm
    have closed : scan.i + 1 + d.length < body.length ↔
        d.length < (body.drop (scan.i + 1)).length := by
      rw [List.length_drop]
      omega
    have someByte : scan.i + 1 < scan.i + 1 + d.length ↔ d ≠ [] := by
      rw [← List.length_pos_iff]
      omega
    rw [dropped, parseDocsRegistry, if_pos rfl]
    simp only [jEq, between, ← dEq, List.drop_drop, closed, someByte, ← Nat.add_assoc]
    split
    · rw [Finset.insert_union, Finset.union_insert]
    · rfl
  · rename_i different
    obtain rfl := Option.some.inj stepped
    rw [dropped, parseDocsRegistry_cons fun same => different (congrArg some same)]

/-- Where no round is left, the result is what has been read. -/
theorem out_eq_of_scanRegistry_eq_none {body : ByteString} {last : RegistryScan}
    (ended : scanRegistry body last = none) : last.out = last.result body := by
  unfold scanRegistry at ended
  split at ended
  · split at ended <;> contradiction
  · rename_i past
    rw [RegistryScan.result, List.drop_of_length_le (Nat.le_of_not_lt past), parseDocsRegistry,
      Finset.union_empty]

theorem scanRegistry_ends (body : ByteString) (scan : RegistryScan) :
    ∃ rounds ≤ body.length - scan.i, ∃ last,
      perform (fun scan () => scanRegistry body scan) scan (List.replicate rounds ()) =
        some last ∧ scanRegistry body last = none := by
  refine @exists_perform_replicate _ (fun scan () => scanRegistry body scan)
    (fun scan => body.length - scan.i) ?_ scan
  intro scan _ next stepped
  obtain ⟨inside, moved⟩ := index_scanRegistry stepped
  omega

/-- The loop returns what is read from the text. -/
theorem out_eq_parseDocsRegistry {body : ByteString} {last : RegistryScan} {rounds : List Unit}
    (run : perform (fun scan () => scanRegistry body scan) ⟨0, ∅⟩ rounds = some last)
    (ended : scanRegistry body last = none) : last.out = parseDocsRegistry body := by
  rw [out_eq_of_scanRegistry_eq_none ended]
  refine @perform_invariant _ _ _ (fun scan => scan.result body = parseDocsRegistry body)
    ?_ _ _ _ ?_ run
  · exact fun scan _ next before stepped => (result_scanRegistry stepped).trans before
  · rw [RegistryScan.result, List.drop_zero, Finset.empty_union]

/-- Registry round trip.  The valid ids of a set are read back from its registry.  On
any text the loop ends within as many rounds as the text has bytes, and what it
returns are valid ids. -/
theorem registry_round_trip :
    (∀ docs : Finset ByteString, (∀ d ∈ docs, validDocId d = true) →
      parseDocsRegistry (docsRegistryJson docs) = docs) ∧
    ∀ body, (∃ rounds ≤ body.length, ∃ last,
        perform (fun scan () => scanRegistry body scan) ⟨0, ∅⟩ (List.replicate rounds ()) =
            some last ∧
          scanRegistry body last = none ∧ last.out = parseDocsRegistry body) ∧
      ∀ d ∈ parseDocsRegistry body, validDocId d = true := by
  refine ⟨fun docs valid => ?_, fun body => ⟨?_, fun d => validDocId_of_mem_parseDocsRegistry⟩⟩
  · ext d
    rw [mem_parseDocsRegistry_docsRegistryJson
      fun d member => quote_not_mem_of_validDocId (valid d member)]
    exact and_iff_left_of_imp (valid d)
  · obtain ⟨rounds, within, last, run, ended⟩ := scanRegistry_ends body ⟨0, ∅⟩
    exact ⟨rounds, within, last, run, ended, out_eq_parseDocsRegistry run ended⟩

theorem registry_round_trip_two :
    parseDocsRegistry (docsRegistryJson {ascii ['a'], ascii ['b', '.', '1']}) =
      {ascii ['a'], ascii ['b', '.', '1']} := by
  refine registry_round_trip.1 _ fun d member => ?_
  rcases Finset.mem_insert.mp member with rfl | last
  · decide
  · obtain rfl := Finset.mem_singleton.mp last
    decide

end DoomDraft.Server
