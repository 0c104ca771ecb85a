import ProxyNode.Base.Interleave
import ProxyNode.Base.SortedMap
import ProxyNode.Base.Table
import ProxyNode.Base.Text

/-! The OAuth server of an address: scopes, redirects, the store in memory, and the server's
calls as atomic steps on that store. A call carries the time it is made at, the random values
it draws and the answers it gets from the person. -/

namespace ProxyNode.OAuth

open Text

def codeTtlSecs : ℕ := 10 * 60

def askTtlSecs : ℕ := 15 * 60

def touchEverySecs : ℕ := 60

def tokenTtlSecs : ℕ := 30 * 24 * 60 * 60

def noExpiry : ℕ := 2 ^ 63 - 1

/-! ## Scopes -/

def families : List Text :=
  ["threads".toList, "life-map-read".toList, "life-map-write".toList, "computer".toList, "mail".toList,
    "messages".toList, "inference".toList, "moves".toList]

def defaultScope : Text := "threads".toList

def isPurpose (word : Text) : Bool := word.contains ':' && word.head? != some ':'

/-- The families and purposes among the words, each once, in the order they came. -/
def sortWords : List Text → List Text → List Text → Except String (List Text × List Text)
  | [], known, purposes => .ok (known, purposes)
  | word :: words, known, purposes =>
    if word ∈ families then sortWords words (if word ∈ known then known else known ++ [word]) purposes
    else if isPurpose word then
      sortWords words known (if word ∈ purposes then purposes else purposes ++ [word])
    else .error (String.ofList word ++ " is not a scope this address has; the scopes are " ++
      String.ofList (", ".toList.intercalate families))

def normalizeScope (requested : Option Text) : Except String Text :=
  let requested := (requested.map trim).getD []
  if requested = [] then .ok defaultScope
  else match sortWords requested.splitWhitespace [] [] with
    | .error why => .error why
    | .ok (known, purposes) => .ok ([' '].intercalate (known.orderBy families.idxOf ++ purposes))

def scopeFamilies (scope : Option Text) : List Text :=
  let words := match (scope.map trim).filter (· ≠ []) with
    | some scope => splitWhitespace scope
    | none => [defaultScope]
  families.filter (words.contains ·)

def scopeIsPurposeOnly (scope : Text) : Bool :=
  scope.splitWhitespace ≠ [] ∧ scope.splitWhitespace.all fun word => !families.contains word && isPurpose word

def expiresAtFor (scope : Text) (now : ℕ) : ℕ :=
  -- the sum is of `u64`s
  if scopeIsPurposeOnly scope then noExpiry else (now + tokenTtlSecs) % 2 ^ 64

/-! ## Redirects and PKCE -/

def isLoopback (host : Text) : Bool :=
  host = "localhost".toList ∨ host = "127.0.0.1".toList ∨ host = "[::1]".toList

def redirectUriIsAllowed (uri : Text) : Bool :=
  if uri.contains '#' || uri.any isWhitespace then false
  else match "https://".toList.isPrefixOf? uri with
    | some rest => rest.head?.any (· != '/')
    | none =>
      match "http://".toList.isPrefixOf? uri with
      | none => false
      | some rest =>
        let authority := rest.takeWhile fun c => c != '/' && c != '?'
        isLoopback (match rsplitOnce ':' authority with
          | none => authority
          | some (host, port) => if port.all Char.isDigit then host else authority)

def isUnreserved (c : Char) : Bool := c.isAlphanum || c == '-' || c == '.' || c == '_' || c == '~'

def codeChallengeIsWellFormed (challenge : Text) : Bool :=
  43 ≤ challenge.utf8Length && challenge.utf8Length ≤ 128 && challenge.all isUnreserved

/-- The digests the server computes: `BASE64URL(SHA256(..))` of a verifier and the hex
SHA-256 of a bearer. -/
structure Digests where
  s256 : Text → Text
  hashToken : Text → Text

def pkceMatches (D : Digests) (verifier challenge : Text) : Bool :=
  codeChallengeIsWellFormed verifier && D.s256 verifier == challenge

def hexDigit (n : ℕ) : Char := "0123456789ABCDEF".toList.getD n '0'

def percentEncodeByte (b : UInt8) : Text :=
  let c := Char.ofNat b.toNat
  if b.toNat < 128 && isUnreserved c then [c] else ['%', hexDigit (b.toNat / 16), hexDigit (b.toNat % 16)]

def percentEncode (t : Text) : Text := (t.flatMap String.utf8EncodeChar).flatMap percentEncodeByte

def redirectWith (redirectUri : Text) (params : List (String × Text)) : Text :=
  (params.foldl (fun (url, separator) (name, value) =>
    if value = [] then (url, separator)
    else (url ++ separator :: name.toList ++ '=' :: percentEncode value, '&'))
    (redirectUri, if redirectUri.contains '?' then '&' else '?')).1

/-! ## The store in memory -/

structure Client where
  id : Text
  name : Text
  redirectUris : List Text
  registeredAt : ℕ
deriving DecidableEq

structure Ask where
  id : Text
  clientId : Text
  clientName : Text
  issuer : Text
  redirectUri : Text
  scope : Option Text
  state : Option Text
  codeChallenge : Text
  askedAt : ℕ
  code : Option Text
  codeIssuedAt : Option ℕ
  codeUsed : Bool
deriving DecidableEq

inductive Answer
  | pending
  | approved
  | denied
deriving DecidableEq

structure Token where
  id : Text
  clientId : Text
  clientName : Text
  hash : Text
  scope : Option Text
  issuedAt : ℕ
  expiresAt : ℕ
  lastUsedAt : Option ℕ
  revokedAt : Option ℕ
deriving DecidableEq

def Token.isLive (token : Token) : Bool := token.revokedAt.isNone

def Token.isLiveAt (token : Token) (now : ℕ) : Bool := token.isLive && now < token.expiresAt

def Token.runsOut (token : Token) : Bool := token.expiresAt ≠ noExpiry

inductive OAuthError
  | store (message : String)
  | consent (message : String)
deriving DecidableEq

structure MemoryStore where
  clients : SortedMap Text Client
  asks : SortedMap Text Ask
  tokens : SortedMap Text Token

namespace MemoryStore

def new : MemoryStore := ⟨∅, ∅, ∅⟩

variable (s : MemoryStore)

def putClient (client : Client) : MemoryStore := { s with clients := s.clients.insert client.id client }

def client (id : Text) : Option Client := s.clients.get? id

def putAsk (ask : Ask) : MemoryStore := { s with asks := s.asks.insert ask.id ask }

def ask (id : Text) : Option Ask := s.asks.get? id

def mintCode (id code : Text) (now : ℕ) : MemoryStore × Option Ask :=
  match s.asks.get? id with
  | none => (s, none)
  | some ask =>
    let ask := if ask.code = none then { ask with code := some code, codeIssuedAt := some now } else ask
    ({ s with asks := s.asks.insert id ask }, some ask)

def redeemCode (code : Text) : MemoryStore × Option Ask :=
  match s.asks.entries.find? fun e => !e.2.codeUsed && e.2.code == some code with
  | none => (s, none)
  | some (id, ask) =>
    let ask := { ask with codeUsed := true }
    ({ s with asks := s.asks.insert id ask }, some ask)

def putToken (token : Token) : Except OAuthError MemoryStore :=
  if s.tokens.contains token.id then
    .error (.store ("token " ++ String.ofList token.id ++ " is already held"))
  else .ok { s with tokens := s.tokens.insert token.id token }

def revokeToken (id : Text) (now : ℕ) : MemoryStore × Bool :=
  match s.tokens.get? id with
  | none => (s, false)
  | some held =>
    let held := if held.revokedAt = none then { held with revokedAt := some now } else held
    ({ s with tokens := s.tokens.insert id held }, true)

def touchToken (id : Text) (usedAt : ℕ) : MemoryStore :=
  match s.tokens.get? id with
  | none => s
  | some held =>
    if held.isLive then { s with tokens := s.tokens.insert id { held with lastUsedAt := some usedAt } } else s

def tokenByHash (hash : Text) : Option Token := (s.tokens.entries.find? fun e => e.2.hash = hash).map Prod.snd

end MemoryStore

/-! ## Requests and answers -/

structure Registration where
  clientName : Option Text
  redirectUris : List Text

structure RegistrationRefusal where
  error : String
  errorDescription : String
deriving DecidableEq

structure AuthorizeRequest where
  responseType : Option Text
  clientId : Option Text
  redirectUri : Option Text
  scope : Option Text
  state : Option Text
  codeChallenge : Option Text
  codeChallengeMethod : Option Text

inductive Refusal
  | page (status : ℕ) (message : String)
  | redirect (url : Text)
deriving DecidableEq

inductive Progress
  | waiting
  | redirect (url : Text)
  | denied (url : Text)
  | gone
deriving DecidableEq

structure TokenRequest where
  grantType : Option Text
  code : Option Text
  redirectUri : Option Text
  clientId : Option Text
  codeVerifier : Option Text

structure TokenRefusal where
  error : String
  errorDescription : String
deriving DecidableEq

structure Issued where
  accessToken : Text
  tokenType : String
  expiresIn : Option ℕ
  scope : Text
deriving DecidableEq

def given (field : Option Text) : Option Text := (field.map trim).filter (· ≠ [])

def registeredClient (registration : Registration) (now : ℕ) (id : Text) : Except RegistrationRefusal Client :=
  match given registration.clientName with
  | none => .error ⟨"invalid_client_metadata",
      "client_name is required: the person is asked whether to let it in by that name"⟩
  | some name =>
    if 80 < name.length then .error ⟨"invalid_client_metadata", "client_name is at most 80 characters"⟩
    else if registration.redirectUris = [] then .error ⟨"invalid_redirect_uri", "redirect_uris is required"⟩
    else match registration.redirectUris.find? fun uri => !redirectUriIsAllowed uri with
      | some uri => .error ⟨"invalid_redirect_uri", String.ofList uri ++
          " is not an https URL or an http URL on the loopback, or it has a fragment"⟩
      | none => .ok ⟨id, name, registration.redirectUris, now⟩

def askOf (client : Client) (request : AuthorizeRequest) (issuer : Text) (now : ℕ) (id : Text) :
    Except Refusal Ask :=
  let issuer := trimEndMatches '/' issuer
  match given request.redirectUri with
  | none => .error (.page 400 "The request names no redirect_uri.")
  | some redirectUri =>
    if redirectUri ∉ client.redirectUris then
      .error (.page 400 "The redirect_uri is not one the client registered.")
    else
      let refuse (error description : String) : Except Refusal Ask :=
        .error (.redirect (redirectWith redirectUri [("error", error.toList),
          ("error_description", description.toList), ("state", request.state.getD []), ("iss", issuer)]))
      if request.responseType.map trim ≠ some "code".toList then
        refuse "unsupported_response_type" "Only response_type=code is supported."
      else if (request.codeChallengeMethod.map trim).getD "S256".toList ≠ "S256".toList then
        refuse "invalid_request" "Only code_challenge_method=S256 is supported."
      else match (request.codeChallenge.map trim).filter codeChallengeIsWellFormed with
        | none => refuse "invalid_request"
            "PKCE is required: send a code_challenge of 43 to 128 unreserved characters."
        | some codeChallenge =>
          match normalizeScope request.scope with
          | .error why => refuse "invalid_scope" why
          | .ok scope => .ok
            { id := id, clientId := client.id, clientName := client.name, issuer := issuer,
              redirectUri := redirectUri,
              scope := some scope, state := request.state.filter (· ≠ []), codeChallenge := codeChallenge,
              askedAt := now, code := none, codeIssuedAt := none, codeUsed := false }

def codeIsFresh (ask : Ask) (now : ℕ) : Bool := ask.codeIssuedAt.any fun issued => now - issued ≤ codeTtlSecs

def approvedRedirect (ask : Ask) (code : Text) : Text :=
  redirectWith ask.redirectUri [("code", code), ("state", ask.state.getD []), ("iss", ask.issuer),
    ("client_id", ask.clientId)]

def codeProgress (ask : Ask) (now : ℕ) : Progress :=
  match ask.code with
  | some code => if codeIsFresh ask now then .redirect (approvedRedirect ask code) else .gone
  | none => .gone

def tokenGrant (request : TokenRequest) : Except TokenRefusal (Text × Text) :=
  if request.grantType.map trim ≠ some "authorization_code".toList then
    .error ⟨"unsupported_grant_type", "Only grant_type=authorization_code is supported."⟩
  else match given request.code with
    | none => .error ⟨"invalid_request", "code is required."⟩
    | some code =>
      match given request.codeVerifier with
      | none => .error ⟨"invalid_request", "code_verifier is required."⟩
      | some verifier => .ok (code, verifier)

def tokenOf (D : Digests) (request : TokenRequest) (verifier : Text) (now : ℕ) (secret id : Text) (ask : Ask) :
    Except TokenRefusal Token :=
  if codeIsFresh ask now = false then .error ⟨"invalid_grant", "The code is older than ten minutes."⟩
  else if request.clientId.map trim ≠ some ask.clientId then
    .error ⟨"invalid_client", "The client_id is not the one that asked."⟩
  else if request.redirectUri.map trim ≠ some ask.redirectUri then
    .error ⟨"invalid_grant", "The redirect_uri is not the one the ask was made with."⟩
  else if pkceMatches D verifier ask.codeChallenge = false then
    .error ⟨"invalid_grant", "The code_verifier does not match the code_challenge."⟩
  else
    let scope := ask.scope.getD defaultScope
    .ok { id := id, clientId := ask.clientId, clientName := ask.clientName, hash := D.hashToken secret,
          scope := some scope, issuedAt := now, expiresAt := expiresAtFor scope now, lastUsedAt := none,
          revokedAt := none }

def issuedFor (secret : Text) (token : Token) : Issued where
  accessToken := secret
  tokenType := "Bearer"
  expiresIn := if token.runsOut then some tokenTtlSecs else none
  scope := token.scope.getD []

/-! ## Calls -/

/-- A call of the server, with what the person answers to it and the values it draws. -/
inductive Call
  | register (registration : Registration) (now : ℕ) (id : Text)
  | authorize (request : AuthorizeRequest) (issuer : Text) (now : ℕ) (id : Text)
      (shown : Ask → Except OAuthError Unit)
  | progress (askId : Text) (now : ℕ) (answer : Ask → Except OAuthError Answer) (code : Text)
  | token (request : TokenRequest) (now : ℕ) (secret id : Text)
  | revoke (bearer : Text) (now : ℕ)
  | admitBearer (bearer : Text) (now : ℕ)

/-- What a call came to. An issuing call also keeps the ask it redeemed and the token it put,
a revoking one the token it found. -/
inductive Outcome
  | failed (error : OAuthError)
  | registered (client : Client)
  | registrationRefused (refusal : RegistrationRefusal)
  | asked (ask : Ask)
  | authorizeRefused (refusal : Refusal)
  | polled (progress : Progress)
  | issued (ask : Ask) (token : Token) (issued : Issued)
  | tokenRefused (refusal : TokenRefusal)
  | revoked (found : Option Token)
  | admitted (token : Option Token)
deriving DecidableEq

/-- Where a call stands between two steps on the store, with the locals it still needs. -/
inductive Point
  | start
  | putAsk (ask : Ask)
  | mintCode (ask : Ask)
  | putToken (ask : Ask) (token : Token)
  | revokeToken (token : Token)
  | touchToken (token : Token)
  | done (outcome : Outcome)
deriving DecidableEq

namespace Server

def register (registration : Registration) (now : ℕ) (id : Text) (s : MemoryStore) : MemoryStore × Point :=
  match registeredClient registration now id with
  | .error refusal => (s, .done (.registrationRefused refusal))
  | .ok client => (s.putClient client, .done (.registered client))

/-- Up to the read of the client. -/
def authorize (request : AuthorizeRequest) (issuer : Text) (now : ℕ) (id : Text) (s : MemoryStore) :
    MemoryStore × Point :=
  match given request.clientId with
  | none => (s, .done (.authorizeRefused (.page 400 "The request names no client_id.")))
  | some clientId =>
    match s.client clientId with
    | none => (s, .done (.authorizeRefused (.page 400 "No client with that client_id has registered here.")))
    | some client =>
      match askOf client request issuer now id with
      | .error refusal => (s, .done (.authorizeRefused refusal))
      | .ok ask => (s, .putAsk ask)

/-- From there on: the ask is put, then shown to the person. -/
def authorizePut (shown : Ask → Except OAuthError Unit) (ask : Ask) (s : MemoryStore) : MemoryStore × Point :=
  (s.putAsk ask, .done (match shown ask with
    | .error error => .failed error
    | .ok () => .asked ask))

/-- Up to the person's answer to the ask as it was read. -/
def progress (askId : Text) (now : ℕ) (answer : Ask → Except OAuthError Answer) (s : MemoryStore) :
    MemoryStore × Point :=
  match s.ask askId with
  | none => (s, .done (.polled .gone))
  | some ask =>
    if ask.codeUsed then (s, .done (.polled .gone))
    else if ask.code ≠ none then (s, .done (.polled (codeProgress ask now)))
    else if askTtlSecs < now - ask.askedAt then (s, .done (.polled .gone))
    else match answer ask with
      | .error error => (s, .done (.failed error))
      | .ok .pending => (s, .done (.polled .waiting))
      | .ok .denied => (s, .done (.polled (.denied (redirectWith ask.redirectUri
          [("error", "access_denied".toList),
            ("error_description", "The person did not let the client in.".toList),
            ("state", ask.state.getD []), ("iss", ask.issuer)]))))
      | .ok .approved => (s, .mintCode ask)

def progressMint (now : ℕ) (code : Text) (ask : Ask) (s : MemoryStore) : MemoryStore × Point :=
  match s.mintCode ask.id code now with
  | (s, none) => (s, .done (.polled .gone))
  | (s, some ask) => (s, .done (.polled (codeProgress ask now)))

variable (D : Digests)

/-- Up to the redeemed code and the checks on its ask. -/
def token (request : TokenRequest) (now : ℕ) (secret id : Text) (s : MemoryStore) : MemoryStore × Point :=
  match tokenGrant request with
  | .error refusal => (s, .done (.tokenRefused refusal))
  | .ok (code, verifier) =>
    match s.redeemCode code with
    | (s, none) => (s, .done (.tokenRefused ⟨"invalid_grant",
        "The code is not one this server issued, or it was already redeemed."⟩))
    | (s, some ask) =>
      match tokenOf D request verifier now secret id ask with
      | .error refusal => (s, .done (.tokenRefused refusal))
      | .ok token => (s, .putToken ask token)

def tokenPut (secret : Text) (ask : Ask) (token : Token) (s : MemoryStore) : MemoryStore × Point :=
  match s.putToken token with
  | .error error => (s, .done (.failed error))
  | .ok s => (s, .done (.issued ask token (issuedFor secret token)))

def revoke (bearer : Text) (s : MemoryStore) : MemoryStore × Point :=
  match s.tokenByHash (D.hashToken (trim bearer)) with
  | none => (s, .done (.revoked none))
  | some token => (s, .revokeToken token)

def revokePut (now : ℕ) (token : Token) (s : MemoryStore) : MemoryStore × Point :=
  ((s.revokeToken token.id now).1, .done (.revoked (some token)))

/-- Up to the lookup: a live token is let in at once, or touched first. -/
def admitBearer (bearer : Text) (now : ℕ) (s : MemoryStore) : MemoryStore × Point :=
  let bearer := trim bearer
  if bearer = [] then (s, .done (.admitted none))
  else match s.tokenByHash (D.hashToken bearer) with
    | none => (s, .done (.admitted none))
    | some token =>
      if token.isLiveAt now = false then (s, .done (.admitted none))
      else if token.lastUsedAt.all fun used => touchEverySecs ≤ now - used then
        (s, .touchToken { token with lastUsedAt := some now })
      else (s, .done (.admitted (some token)))

def admitTouch (now : ℕ) (token : Token) (s : MemoryStore) : MemoryStore × Point :=
  (s.touchToken token.id now, .done (.admitted (some token)))

def step : Call → Point → MemoryStore → MemoryStore × Point
  | .register registration now id, .start => register registration now id
  | .authorize request issuer now id _, .start => authorize request issuer now id
  | .authorize _ _ _ _ shown, .putAsk ask => authorizePut shown ask
  | .progress askId now answer _, .start => progress askId now answer
  | .progress _ now _ code, .mintCode ask => progressMint now code ask
  | .token request now secret id, .start => token D request now secret id
  | .token _ _ secret _, .putToken ask token => tokenPut secret ask token
  | .revoke bearer _, .start => revoke D bearer
  | .revoke _ now, .revokeToken token => revokePut now token
  | .admitBearer bearer now, .start => admitBearer D bearer now
  | .admitBearer _ now, .touchToken token => admitTouch now token
  | _, point => fun s => (s, point)

end Server

abbrev World := Interleave.World MemoryStore Call Point

abbrev Thread := Interleave.Thread Call Point

abbrev Event := Interleave.Event Call

def run (D : Digests) (events : List Event) : World :=
  Interleave.World.run .start (Server.step D) ⟨.new, []⟩ events

end ProxyNode.OAuth
