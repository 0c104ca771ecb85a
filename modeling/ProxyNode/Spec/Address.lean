import ProxyNode.Base.Text

/-! The grammar of an address and of the agent at it. -/

namespace ProxyNode

open Text

def domain : Text := "proxy.ing".toList

/-- First path segments an address keeps for itself. -/
def reservedSegments : List Text :=
  ["p", "c", "party", "skill", "a", "oauth", "client", "mcp", "inference", "v1", "devices", "success",
    ".well-known"].map String.toList

def isReserved (segment : Text) : Bool := reservedSegments.contains segment

structure AgentAddress where
  user : Text
  agent : Option Text
deriving DecidableEq

inductive AddressError
  | empty
  | notProxyIng
  | badName
  | nameLength
  | badAgent
  | reservedAgent (segment : Text)
  | tooDeep
deriving DecidableEq

def isNameChar (c : Char) : Bool := c.isLower || c.isDigit || c == '-'

def normalizeUser (raw : Text) : Except AddressError Text :=
  let user := toAsciiLowercase (trim raw)
  if user = [] then .error .empty
  else if !user.all isNameChar then .error .badName
  else if user.head? = some '-' ∨ user.getLast? = some '-' then .error .badName
  else if user.utf8Length < 3 ∨ 30 < user.utf8Length then .error .nameLength
  else .ok user

def isAgentId (id : Text) : Bool :=
  id.head?.any (fun c => c.isLower || c.isDigit) && id.utf8Length ≤ 63 && id.all isNameChar

def normalizeAgent (raw : Text) : Except AddressError Text :=
  let agent := toAsciiLowercase (trim raw)
  if !isAgentId agent then .error .badAgent
  else if isReserved agent then .error (.reservedAgent agent)
  else .ok agent

namespace AgentAddress

def withoutScheme (text : Text) : Text :=
  match "https://".toList.isPrefixOf? text with
  | some rest => rest
  | none => ("http://".toList.isPrefixOf? text).getD text

def parse (text : Text) : Except AddressError AgentAddress :=
  let rest := withoutScheme (toAsciiLowercase (trim text))
  let (host, path) := (splitOnce '/' rest).getD (rest, [])
  let named :=
    match (domain.isSuffixOf? host).bind (['.'].isSuffixOf? ·) with
    | some user => normalizeUser user
    | none => if host.contains '.' then .error .notProxyIng else normalizeUser host
  match named with
  | .error why => .error why
  | .ok user =>
    let path := (['/'].isSuffixOf? path).getD path
    if path = [] then .ok ⟨user, none⟩
    else if path.contains '/' then .error .tooDeep
    else match normalizeAgent path with
      | .error why => .error why
      | .ok agent => .ok ⟨user, some agent⟩

def host (address : AgentAddress) : Text := address.user ++ '.' :: domain

def display (address : AgentAddress) : Text :=
  address.user ++ '.' :: domain ++ match address.agent with
    | some agent => '/' :: agent
    | none => []

end AgentAddress

end ProxyNode
