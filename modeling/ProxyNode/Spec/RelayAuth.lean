import ProxyNode.Base.SortedMap
import ProxyNode.Spec.Relay

/-! Authentication of a relay request: the caller's signature over everything the request
says, and a cache of recently seen nonces. Header texts come in decoded. -/

namespace ProxyNode

open Wire

/-- Times are in nanoseconds. -/
def relayReplayTtl : ℕ := 5 * 60 * 10 ^ 9

def relayReplayLimit : ℕ := 4096

def relayOpsSigningContext : List Byte := ascii "proxy-node-server/relay/ops/v2\x00"

def relayHeadSigningContext : List Byte := ascii "proxy-node-server/relay/head/v2\x00"

def relayWatchSigningContext : List Byte := ascii "proxy-node-server/relay/watch/v2\x00"

def relayOpsRequestContext : List Byte := ascii "proxy-node-server/relay/request/ops/v2\x00"

def relayHeadRequestContext : List Byte := ascii "proxy-node-server/relay/request/head/v2\x00"

def relayWatchRequestContext : List Byte := ascii "proxy-node-server/relay/request/watch/v2\x00"

def deviceBookSigningContext : List Byte := ascii "proxy-node-server/device-book/v2\x00"

/-- The time each `(caller, nonce)` was seen. -/
abbrev RelayReplayCache := SortedMap (DeviceId ×ₗ Bytes 32) ℕ

inductive RelayRefusal
  | badRequest
  | unauthorized
  | serviceUnavailable
  | conflict
  | tooManyRequests
deriving DecidableEq

structure RelayRequestAuth where
  epoch : Epoch
  nonce : Bytes 32
  caller : DeviceId
deriving DecidableEq

structure RelayHeaders where
  /-- `none` if the header is missing, `some none` if it is not 32 bytes of hex. -/
  nonce : Option (Option (Bytes 32))
  caller : Option DeviceId
  signature : Option (Bytes 64)

/-- The arguments of one call, with the clock reading it makes. The device book answers or
fails. -/
structure RelayCall where
  epoch : Option Epoch
  after : ℕ
  requestBound : ℕ
  headers : RelayHeaders
  requestContext : List Byte
  servingPeer : DeviceId
  devices : DeviceId → Except String (Option (Bytes 33))
  now : ℕ

def relayRequestSigningInput (context : List Byte) (caller servingPeer : DeviceId) (requestEpoch : Epoch)
    (after requestBound : ℕ) (nonce : Bytes 32) : List Byte :=
  context ++ caller.1 ++ servingPeer.1 ++ requestEpoch.1 ++ be64 after ++ be64 requestBound ++ nonce.1

def relayResponseSigningInput (context : List Byte) (signer caller : DeviceId) (requestEpoch : Epoch)
    (after requestBound : ℕ) (nonce : Bytes 32) (body : List Byte) : List Byte :=
  context ++ signer.1 ++ caller.1 ++ requestEpoch.1 ++ be64 after ++ be64 requestBound ++ nonce.1 ++ body

def deviceBookSigningInput (signer : DeviceId) (nonce : Bytes 32) (body : List Byte) : List Byte :=
  deviceBookSigningContext ++ signer.1 ++ nonce.1 ++ body

section

variable (C : Crypto)

def deviceIdFromSec1 (sec1 : Bytes 33) : Option DeviceId := (C.keyOfSec1 sec1).map C.deviceIdOfKey

/-- The checks made before the cache is consulted. -/
def authenticateRelay (call : RelayCall) : Except RelayRefusal RelayRequestAuth :=
  match call.epoch with
  | none => .error .badRequest
  | some epoch =>
    if epoch = zeroEpoch ∧ call.after ≠ 0 then .error .badRequest
    else match call.headers.nonce with
      | none => .error .badRequest
      | some none => .error .unauthorized
      | some (some nonce) =>
        match call.headers.caller, call.headers.signature.bind C.signatureOfBytes with
        | none, _ => .error .unauthorized
        | _, none => .error .unauthorized
        | some caller, some signature =>
          if (C.normalizeS signature).isSome then .error .unauthorized
          else match call.devices caller with
            | .error _ => .error .serviceUnavailable
            | .ok none => .error .unauthorized
            | .ok (some sec1) =>
              if deviceIdFromSec1 C sec1 ≠ some caller then .error .unauthorized
              else match C.keyOfSec1 sec1 with
                | none => .error .unauthorized
                | some verifying =>
                  if C.verify verifying (relayRequestSigningInput call.requestContext caller call.servingPeer
                      epoch call.after call.requestBound nonce) signature then .ok ⟨epoch, nonce, caller⟩
                  else .error .unauthorized

/-- Forget what is older than the time to live, then refuse a nonce that is left, or any if
the cache is full. -/
def RelayReplayCache.take (replays : RelayReplayCache) (now : ℕ) (auth : RelayRequestAuth) :
    Except RelayRefusal RelayRequestAuth × RelayReplayCache :=
  let replays := replays.retain fun _ seen => now - seen ≤ relayReplayTtl
  let key := toLex (auth.caller, auth.nonce)
  if replays.contains key then (.error .conflict, replays)
  else if replays.size ≥ relayReplayLimit then (.error .tooManyRequests, replays)
  else (.ok auth, replays.insert key now)

def relayRequest (call : RelayCall) (replays : RelayReplayCache) :
    Except RelayRefusal RelayRequestAuth × RelayReplayCache :=
  match authenticateRelay C call with
  | .error refusal => (.error refusal, replays)
  | .ok auth => replays.take call.now auth

def relayRequests (replays : RelayReplayCache) : List RelayCall →
    List (RelayCall × Except RelayRefusal RelayRequestAuth)
  | [] => []
  | call :: calls =>
    (call, (relayRequest C call replays).1) :: relayRequests (relayRequest C call replays).2 calls

end

end ProxyNode
