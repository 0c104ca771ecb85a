import ProxyNode.Spec.AskProof

/-! The client of an address: the redirect it is sent back with. -/

namespace ProxyNode.OAuth

open Text

structure Redirect where
  code : Text
  state : Option Text
  iss : Option Text
  clientId : Option Text
deriving DecidableEq

namespace Redirect

def default : Redirect := ⟨[], none, none, none⟩

def put (redirect : Redirect) (name value : Text) : Redirect :=
  if name = "code".toList then { redirect with code := value }
  else if name = "state".toList then { redirect with state := some value }
  else if name = "iss".toList then { redirect with iss := some value }
  else if name = "client_id".toList then { redirect with clientId := some value }
  else redirect

/-- One pair of the query, read over what the pairs before it said. -/
def readPair (redirect : Redirect) (pair : Text) : Option Redirect :=
  let (name, value) := nameValue pair
  (percentDecodeText value).map (redirect.put name)

def parse (url : Text) : Option Redirect :=
  match splitOnce '?' url with
  | none => none
  | some (_, query) =>
    match ((query.takeWhile (· ≠ '#')).splitOn '&').foldlM readPair default with
    | none => none
    | some redirect => if redirect.code = [] then none else some redirect

end Redirect

end ProxyNode.OAuth
