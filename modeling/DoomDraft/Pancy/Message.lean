import DoomDraft.Foundation.Bytes

/-!
# Client messages of the replicated store

Requests carry a serial number that identifies the client operation; every
response echoes it.  The three modification responses have one common layout.
-/

namespace DoomDraft.Pancy

/-- Version of an absent key; stored data have positive versions. -/
def nonexistentVersion : Int := 0

/-- The `version_match` value that matches every version. -/
def anyVersion : Int := -1

/-- `errc`, the outcome of a request. -/
inductive Errc where
  | ok
  | notFound
  | noMatch
  | redirect
  deriving DecidableEq, Repr

/-- `get_request`. -/
structure GetRequest where
  serial : Nat
  key : ByteString
  deriving DecidableEq

/-- `put_request`. -/
structure PutRequest where
  serial : Nat
  key : ByteString
  value : ByteString
  versionMatch : Int := anyVersion
  deriving DecidableEq

/-- `cas_request`. -/
structure CasRequest where
  serial : Nat
  key : ByteString
  expected : ByteString
  desired : ByteString
  versionMatch : Int := anyVersion
  deriving DecidableEq

/-- `remove_request`. -/
structure RemoveRequest where
  serial : Nat
  key : ByteString
  versionMatch : Int := anyVersion
  deriving DecidableEq

/-- `request`, a message from a client. -/
inductive Request where
  | get (req : GetRequest)
  | put (req : PutRequest)
  | cas (req : CasRequest)
  | remove (req : RemoveRequest)
  deriving DecidableEq

/-- `message_serial` of a request. -/
def Request.serial : Request → Nat
  | .get req => req.serial
  | .put req => req.serial
  | .cas req => req.serial
  | .remove req => req.serial

/-- `redirection_response`. -/
structure RedirectionResponse where
  serial : Nat
  errcode : Errc
  redirection : Nat
  deriving DecidableEq

/-- `get_response`. -/
structure GetResponse where
  serial : Nat
  errcode : Errc
  value : ByteString
  version : Int
  deriving DecidableEq

/-- The layout shared by `put_response`, `cas_response` and `remove_response`. -/
structure ModResponse where
  serial : Nat
  errcode : Errc
  actual : ByteString
  previousVersion : Int
  version : Int
  deriving DecidableEq

/-- `response`, a message to a client. -/
inductive Response where
  | redirection (resp : RedirectionResponse)
  | get (resp : GetResponse)
  | put (resp : ModResponse)
  | cas (resp : ModResponse)
  | remove (resp : ModResponse)
  deriving DecidableEq

/-- `message_serial` of a response. -/
def Response.serial : Response → Nat
  | .redirection resp => resp.serial
  | .get resp => resp.serial
  | .put resp => resp.serial
  | .cas resp => resp.serial
  | .remove resp => resp.serial

/-- Whether a response only tells the client to contact another replica. -/
def Response.isRedirection : Response → Bool
  | .redirection _ => true
  | _ => false

end DoomDraft.Pancy
