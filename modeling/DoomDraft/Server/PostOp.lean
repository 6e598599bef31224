import DoomDraft.Document.Operation
import DoomDraft.Foundation.JsonText
import DoomDraft.Server.Json

/-!
# Decoding a posted operation

The part of `handle_post_op_doc` that takes the body apart, and what it answers where
that fails.
-/

namespace DoomDraft.Server

open Document

/-! ## Bad requests -/

/-- The body of an answer that names an error. -/
def errorBody (error : String) : ByteString :=
  ascii ['\x7b', '"', 'e', 'r', 'r', 'o', 'r', '"', ':', '"'] ++ ascii error.toList ++
    ascii ['"', '\x7d']

/-- Such a body is a JSON object with the text of the error. -/
theorem decode_errorBody {error : String} (plain : ∀ c ∈ ascii error.toList, Json.Plain c) :
    Json.decode (errorBody error) =
      some (.object [(ascii ['e', 'r', 'r', 'o', 'r'], .string (ascii error.toList))]) := by
  have name : Json.Encodes (ascii ['e', 'r', 'r', 'o', 'r']) (ascii ['e', 'r', 'r', 'o', 'r']) :=
    Json.encodes_of_plain (by decide +kernel)
  have text := Json.reads_string (Json.encodes_of_plain plain)
  have object := (Json.readsMembers_single name text).object.decode
  rw [← object, errorBody, List.append_assoc]
  simp [Json.memberText, ascii]

/-- A request that is answered with status 400. -/
inductive BadRequest where
  | missingField
  | negative
  | missingText
  | invalidLen
  | invalidType
  deriving DecidableEq

/-- The error that the answer names. -/
def BadRequest.error : BadRequest → String
  | .missingField => "missing field (type/pos/client_id/seq)"
  | .negative => "pos and seq must be >= 0"
  | .missingText => "missing text for insert"
  | .invalidLen => "missing/invalid len for delete"
  | .invalidType => "type must be 'I' or 'D'"

theorem BadRequest.decode_body (bad : BadRequest) : Json.decode (errorBody bad.error) =
    some (.object [(ascii ['e', 'r', 'r', 'o', 'r'], .string (ascii bad.error.toList))]) := by
  apply decode_errorBody
  cases bad <;> decide +kernel

/-! ## The operation -/

/-- What a body is decoded to. -/
structure PostedOp where
  op : DocOp Byte
  clientId : ByteString
  seq : Nat
  deriving DecidableEq

/-- `handle_post_op_doc` up to the submission. -/
def parsePostOp (body : ByteString) : Except BadRequest PostedOp :=
  match jsonGetString body (ascii ['t', 'y', 'p', 'e']), jsonGetInt body (ascii ['p', 'o', 's']),
    jsonGetString body (ascii ['c', 'l', 'i', 'e', 'n', 't', '_', 'i', 'd']),
    jsonGetInt body (ascii ['s', 'e', 'q']) with
  | some type, some pos, some clientId, some seq =>
      if pos < 0 ∨ seq < 0 then .error .negative
      else if type = ascii ['I'] then
        match jsonGetString body (ascii ['t', 'e', 'x', 't']) with
        | none => .error .missingText
        | some text => .ok ⟨.insert pos.toNat text, clientId, seq.toNat⟩
      else if type = ascii ['D'] then
        match jsonGetInt body (ascii ['l', 'e', 'n']) with
        | none => .error .invalidLen
        | some len =>
            if len < 0 then .error .invalidLen
            else .ok ⟨.delete pos.toNat len.toNat, clientId, seq.toNat⟩
      else .error .invalidType
  | _, _, _, _ => .error .missingField

/-- The operation is accepted from the body: its fields are found there. -/
inductive Accepts (body : ByteString) : PostedOp → Prop
  | insert (pos seq : Nat) (text clientId : ByteString)
      (type : jsonGetString body (ascii ['t', 'y', 'p', 'e']) = some (ascii ['I']))
      (posRead : jsonGetInt body (ascii ['p', 'o', 's']) = some (pos : Int))
      (textRead : jsonGetString body (ascii ['t', 'e', 'x', 't']) = some text)
      (idRead : jsonGetString body
        (ascii ['c', 'l', 'i', 'e', 'n', 't', '_', 'i', 'd']) = some clientId)
      (seqRead : jsonGetInt body (ascii ['s', 'e', 'q']) = some (seq : Int)) :
      Accepts body ⟨.insert pos text, clientId, seq⟩
  | delete (pos len seq : Nat) (clientId : ByteString)
      (type : jsonGetString body (ascii ['t', 'y', 'p', 'e']) = some (ascii ['D']))
      (posRead : jsonGetInt body (ascii ['p', 'o', 's']) = some (pos : Int))
      (lenRead : jsonGetInt body (ascii ['l', 'e', 'n']) = some (len : Int))
      (idRead : jsonGetString body
        (ascii ['c', 'l', 'i', 'e', 'n', 't', '_', 'i', 'd']) = some clientId)
      (seqRead : jsonGetInt body (ascii ['s', 'e', 'q']) = some (seq : Int)) :
      Accepts body ⟨.delete pos len, clientId, seq⟩

theorem parsePostOp_eq_ok_iff {body : ByteString} {posted : PostedOp} :
    parsePostOp body = .ok posted ↔ Accepts body posted := by
  constructor
  · intro parsed
    unfold parsePostOp at parsed
    split at parsed
    · rename_i type pos clientId seq typeRead posRead idRead seqRead
      split at parsed
      · contradiction
      · rename_i positive
        rw [not_or, not_lt, not_lt] at positive
        lift pos to Nat using positive.1
        lift seq to Nat using positive.2
        split at parsed
        · rename_i isInsert
          subst isInsert
          split at parsed
          · contradiction
          · rename_i text textRead
            obtain rfl := Except.ok.inj parsed
            exact .insert pos seq text clientId typeRead posRead textRead idRead seqRead
        · split at parsed
          · rename_i isDelete
            subst isDelete
            split at parsed
            · contradiction
            · rename_i len lenRead
              split at parsed
              · contradiction
              · rename_i lenPositive
                lift len to Nat using not_lt.mp lenPositive
                obtain rfl := Except.ok.inj parsed
                exact .delete pos len seq clientId typeRead posRead lenRead idRead seqRead
          · contradiction
    · contradiction
  · intro accepted
    have positive : ∀ n : Nat, ¬ (n : Int) < 0 := fun n => not_lt.mpr (Int.natCast_nonneg n)
    have differ : ascii ['D'] ≠ ascii ['I'] := by decide
    cases accepted with
    | insert pos seq text clientId type posRead textRead idRead seqRead =>
        simp [parsePostOp, type, posRead, textRead, idRead, seqRead, positive]
    | delete pos len seq clientId type posRead lenRead idRead seqRead =>
        simp [parsePostOp, type, posRead, lenRead, idRead, seqRead, positive, differ]

end DoomDraft.Server
