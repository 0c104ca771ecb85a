import ProxyNode.Spec.OAuth

/-! Where a redirect goes: the origin the consent page names, and the host a browser's URL
parser finds. -/

namespace ProxyNode.OAuth

open Text

def isC0OrSpace (c : Char) : Bool := c.toNat ≤ 0x20

/-- What stands in no host: a backslash, a control character or a blank. -/
def isStray (c : Char) : Bool := c = '\\' || isC0OrSpace c

/-- Lower case (`str::to_lowercase`), of which only this is used: such a character is neither put
in nor taken out. -/
structure Lowercase where
  lower : Text → Text
  stray : ∀ t c, isStray c = true → (c ∈ lower t ↔ c ∈ t)

def behindScheme (uri : Text) : Option Text :=
  ("https://".toList.isPrefixOf? uri).or ("http://".toList.isPrefixOf? uri)

def behindUserinfo (authority : Text) : Text := ((rsplitOnce '@' authority).map Prod.snd).getD authority

/-! ## The consent page -/

def thisMachine : Text := "this machine".toList

def redirectAuthority (uri : Text) : Text :=
  ((behindScheme uri).getD uri).takeWhile fun c => c != '/' && c != '?' && c != '#'

def withoutPort (authority : Text) : Text :=
  (((rsplitOnce ':' authority).filter fun e => e.2.all Char.isDigit).map Prod.fst).getD authority

def redirectHost (uri : Text) : Text := withoutPort (behindUserinfo (redirectAuthority uri))

def redirectOrigin (L : Lowercase) (uri : Text) : Text :=
  let host := redirectHost uri
  if isLoopback host then thisMachine else L.lower host

/-! ## The URL parser

The steps of the URL standard for an `http` or `https` URL, up to the text that is handed to the
host parser. -/

def strippedEnd (t : Text) : Text := (t.reverse.dropWhile isC0OrSpace).reverse

/-- The authority: slashes before it are passed over, and a backslash is one of them. -/
def urlAuthority (rest : Text) : Text :=
  (rest.dropWhile fun c => c == '/' || c == '\\').takeWhile fun c => c != '/' && c != '\\' && c != '?' && c != '#'

def bracketStep (inside : Bool) (c : Char) : Bool := if c = '[' then true else if c = ']' then false else inside

def bracketOpen (inside : Bool) (t : Text) : Bool := t.foldl bracketStep inside

/-- The host and the port behind the first `:` outside brackets. -/
def splitHost : Bool → Text → Text × Option Text
  | _, [] => ([], none)
  | inside, c :: rest =>
    if c = ':' ∧ inside = false then ([], some rest)
    else
      let (host, port) := splitHost (bracketStep inside c) rest
      (c :: host, port)

def portIsValid (port : Text) : Bool :=
  port.all Char.isDigit && port.foldl (fun n c => 10 * n + (c.toNat - '0'.toNat)) 0 ≤ 65535

def urlHostText (uri : Text) : Option Text :=
  match behindScheme (strippedEnd uri) with
  | none => none
  | some rest =>
    let (text, port) := splitHost false (behindUserinfo (urlAuthority rest))
    if text ≠ [] ∧ port.all portIsValid then some text else none

/-- A host parser (percent-decoding, IDNA, IP addresses): of what it does with a text, only
this is used, that it refuses an open bracket and that its hosts are free of stray characters. -/
structure HostParser where
  parse : Text → Option Text
  closed : ∀ text host, parse text = some host → bracketOpen false text = false
  clean : ∀ text host, parse text = some host → host.any isStray = false

def HostParser.urlHost (P : HostParser) (uri : Text) : Option Text := (urlHostText uri).bind P.parse

end ProxyNode.OAuth
