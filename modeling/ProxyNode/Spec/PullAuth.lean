import ProxyNode.Spec.Server

/-! Sealing and checking the two messages of a pull. A request and a page each travel as the
payload of a signed envelope; the JSON in the payload is written and read by a codec. -/

namespace ProxyNode

open Wire

def pullRequestStoreId : StoreId := ⟨ascii "mesh-pull-request", by decide +kernel⟩

def pullPageStoreId : StoreId := ⟨ascii "mesh-pull-page", by decide +kernel⟩

def maxRequestSkewMs : ℕ := 120000

/-- What `serde_json` does with the two messages: what it writes it reads back. -/
structure PullCodec where
  encodeRequest : PullRequest → Except String Payload
  decodeRequest : List Byte → Except String PullRequest
  decodeRequest_encodeRequest : ∀ request payload, encodeRequest request = .ok payload →
    decodeRequest payload.1 = .ok request
  encodePage : PullPage → Except String Payload
  decodePage : List Byte → Except String PullPage
  decodePage_encodePage : ∀ page payload, encodePage page = .ok payload → decodePage payload.1 = .ok page

section

variable (C : Crypto) (codec : PullCodec)

def deviceOf (identity : C.Secret) : DeviceId := C.deviceIdOfKey (C.verifyingKey identity)

def publicKeySec1 (identity : C.Secret) : Bytes 33 := C.sec1Compressed (C.verifyingKey identity)

def sealPayload (store : StoreId) (payload : Payload) (identity : C.Secret) (hlc : Hlc) : List Byte :=
  (SignedOp.sealOp C ⟨envelopeVersion, hlc, deviceOf C identity, store, payload⟩ identity).toBytes

def signPullRequest (request : PullRequest) (identity : C.Secret) (hlc : Hlc) : Except String (List Byte) :=
  match codec.encodeRequest request with
  | .error error => .error ("encode pull v3 request: " ++ error)
  | .ok payload => .ok (sealPayload C pullRequestStoreId payload identity hlc)

def sealPullPage (page : PullPage) (identity : C.Secret) (hlc : Hlc) : Except String (List Byte) :=
  match codec.encodePage page with
  | .error error => .error ("encode pull page: " ++ error)
  | .ok payload => .ok (sealPayload C pullPageStoreId payload identity hlc)

/-- The text of a failed envelope check, in the words of the message it is made for. -/
def envelopeErrorText (storedKey mismatch signature : String) : OpError → String
  | .identity .invalidPublicKey => storedKey ++ OpError.text (.identity .invalidPublicKey)
  | .identity (.invalidLength expected got) =>
    storedKey ++ OpError.text (.identity (.invalidLength expected got))
  | .deviceMismatch => mismatch
  | other => signature ++ other.text

def verifyPullRequest (bytes : List Byte) (nowMs : ℤ) (lookupSec1 : DeviceId → Except String (Option (Bytes 33))) :
    Except String (DeviceId × PullRequest) :=
  match SignedOp.fromBytes bytes with
  | .error error => .error ("Invalid signed pull envelope: " ++ error.text)
  | .ok op =>
    if op.body.store ≠ pullRequestStoreId then .error "Invalid pull signature domain"
    else match lookupSec1 op.body.device with
      | .error error => .error error
      | .ok none => .error "Pull requester has no stored mesh key"
      | .ok (some storedKey) =>
        match op.verifyWithSec1 C storedKey.1 with
        | .error error => .error (envelopeErrorText "Invalid stored mesh key: "
            "Stored mesh key does not derive the signer" "Invalid pull signature: " error)
        | .ok () =>
          match codec.decodeRequest op.body.payload.1 with
          | .error error => .error ("Invalid payload: " ++ error)
          | .ok request =>
            if request.version ≠ pullVersion then .error "Unsupported pull protocol version"
            else if (nowMs - request.issuedAtMs).natAbs > maxRequestSkewMs then .error "Pull request expired"
            else .ok (op.body.device, request)

def verifyPullPage (limits : PageLimits) (bytes : List Byte) (peer : DeviceId) (peerKey : Bytes 33) :
    Except String PullPage :=
  match SignedOp.fromBytes bytes with
  | .error error => .error ("invalid v3 pull page envelope: " ++ error.text)
  | .ok op =>
    if op.body.store ≠ pullPageStoreId then .error "v3 pull page used an invalid signature domain"
    else if op.body.device ≠ peer then .error "v3 pull page was signed by another device"
    else match op.verifyWithSec1 C peerKey.1 with
      | .error error => .error (envelopeErrorText "invalid pinned peer key: "
          "pinned peer key does not derive the peer" "invalid v3 pull page signature: " error)
      | .ok () =>
        match codec.decodePage op.body.payload.1 with
        | .error error => .error ("decode v3 pull page: " ++ error)
        | .ok page =>
          if page.version ≠ pullVersion then .error "unsupported v3 pull page version"
          else if page.backfill.length > limits.pageLimitMax ∨ page.keyed.length > limits.pageLimitMax then
            .error "oversized v3 pull page"
          else .ok page

/-! ## The route's gate -/

inductive PullStatus
  | badRequest
  | forbidden
  | unauthorized
  | internalServerError
  | serviceUnavailable
deriving DecidableEq

def classifyPullRequestError (message : String) : PullStatus :=
  if message.startsWith "Invalid payload:" ∨ message = "Unsupported pull protocol version" then .badRequest
  else if message = "Pull request expired" then .forbidden
  else .unauthorized

structure PullGate where
  nowMs : ℤ
  lookupPeerSec1 : DeviceId → Except String (Option (Bytes 33))
  isPeerTrusted : DeviceId → Except String Bool
  isCoveragePrimed : Except String Bool

/-- The failed key lookup, if the request gets that far. -/
def PullGate.lookupError (gate : PullGate) (bytes : List Byte) : Option String :=
  match SignedOp.fromBytes bytes with
  | .error _ => none
  | .ok op =>
    if op.body.store ≠ pullRequestStoreId then none
    else match gate.lookupPeerSec1 op.body.device with
      | .error error => some error
      | .ok _ => none

def authenticatePullRequest (gate : PullGate) (bytes : List Byte) :
    Except (PullStatus × String) (DeviceId × PullRequest) :=
  match verifyPullRequest C codec bytes gate.nowMs gate.lookupPeerSec1 with
  | .error message =>
    match gate.lookupError bytes with
    | some error => .error (.internalServerError, error)
    | none => .error (classifyPullRequestError message, message)
  | .ok (peer, request) =>
    match gate.isPeerTrusted peer with
    | .error error => .error (.internalServerError, error)
    | .ok false => .error (.forbidden, "Pull requester is not a trusted device")
    | .ok true =>
      match gate.isCoveragePrimed with
      | .error error => .error (.internalServerError, error)
      | .ok false => .error (.serviceUnavailable, "Origin coverage is still priming")
      | .ok true => .ok (peer, request)

end

end ProxyNode
