import Mathlib.Data.Finset.Insert
import Mathlib.Order.WithBot
import ProxyNode.Base.Lists
import ProxyNode.Base.SortedMap
import ProxyNode.Base.Text
import ProxyNode.Spec.Op

/-! The roster of a mesh: the candidates of the account's feed, the check of their keys, how a
new feed is reconciled with the last roster, and how candidates that share a key are merged. -/

namespace ProxyNode.Roster

open Text Wire

/-- A device of the feed. `details` are the fields that are carried and not read here: label,
hardware, kind, owner and the figures of the machine. -/
structure CandidatePeer (D : Type) where
  deviceId : Text
  isSelf : Bool
  meshPublicKeyHex : Option Text
  endpoints : List Text
  lastSeenAt : Option Text
  alwaysOn : Option Bool
  alwaysOnReady : Bool
  accountAuthenticated : Bool
  details : D
deriving DecidableEq

/-! ## Keys -/

def decodeSec1 (keyHex : Text) : Option (Bytes 33) :=
  match decodePairs keyHex with
  | some bytes => if h : bytes.length = 33 then some ⟨bytes, h⟩ else none
  | none => none

def deviceIdFromSec1 (C : Crypto) (sec1 : Bytes 33) : Except IdentityError DeviceId :=
  match C.keyOfSec1 sec1 with
  | some key => .ok (C.deviceIdOfKey key)
  | none => .error .invalidPublicKey

def candidateDeviceId (C : Crypto) (keyHex : Text) : Option DeviceId :=
  (decodeSec1 keyHex).bind fun sec1 => (deviceIdFromSec1 C sec1).toOption

def eqIgnoreAsciiCase (s t : Text) : Bool := toAsciiLowercase s = toAsciiLowercase t

variable {D : Type} (C : Crypto)

def CandidatePeer.meshId (candidate : CandidatePeer D) : Option DeviceId :=
  candidate.meshPublicKeyHex.bind (candidateDeviceId C)

/-- The loop of `validate_candidate_keys`, with the ids it has met. -/
def validateFrom (logicalIds : List Text) (meshIds : List DeviceId) :
    List (CandidatePeer D) → Except String (List (DeviceId × Bytes 33))
  | [] => .ok []
  | candidate :: rest =>
    let name := String.ofList candidate.deviceId
    if trim candidate.deviceId = [] ∨ candidate.deviceId ∈ logicalIds then
      .error ("mesh network feed has an empty or duplicate device id: " ++ name)
    else match candidate.meshPublicKeyHex with
      | none => validateFrom (candidate.deviceId :: logicalIds) meshIds rest
      | some keyHex =>
        match decodeSec1 keyHex with
        | none => .error ("mesh network feed has an invalid public key for " ++ name)
        | some sec1 =>
          match deviceIdFromSec1 C sec1 with
          | .error error =>
            .error ("mesh network feed has an invalid curve point for " ++ name ++ ": " ++ error.text)
          | .ok meshDeviceId =>
            if meshDeviceId ∈ meshIds then
              .error ("mesh network feed maps more than one device to key " ++ toHex meshDeviceId)
            else
              (validateFrom (candidate.deviceId :: logicalIds) (meshDeviceId :: meshIds) rest).map
                ((meshDeviceId, sec1) :: ·)

def validateCandidateKeys (candidates : List (CandidatePeer D)) : Except String (List (DeviceId × Bytes 33)) :=
  validateFrom C [] [] candidates

/-! ## Reconciling -/

def carriedForward (kept : CandidatePeer D) : CandidatePeer D := { kept with alwaysOn := none }

/-- The key of a previous candidate that is to be kept: the account vouches for it and it has
pulled of late. -/
def recentKey (recentPulls : Finset DeviceId) (kept : CandidatePeer D) : Option Text :=
  if !kept.accountAuthenticated then none
  else match kept.meshPublicKeyHex with
    | none => none
    | some keptKey =>
      match candidateDeviceId C keptKey with
      | none => none
      | some keptPeer => if keptPeer ∈ recentPulls then some keptKey else none

def CandidatePeer.hasKey (candidate : CandidatePeer D) (key : Text) : Bool :=
  candidate.meshPublicKeyHex.any (eqIgnoreAsciiCase · key)

def reconcileStep (recentPulls : Finset DeviceId) (roster : List (CandidatePeer D)) (kept : CandidatePeer D) :
    List (CandidatePeer D) :=
  match recentKey C recentPulls kept with
  | none => roster
  | some keptKey =>
    if roster.any (·.hasKey keptKey) then roster
    else roster.putBy CandidatePeer.deviceId (carriedForward kept)

def reconcileRoster (incoming previous : List (CandidatePeer D)) (recentPulls : Finset DeviceId) :
    List (CandidatePeer D) :=
  previous.foldl (reconcileStep C recentPulls) incoming

/-! ## Merging

An index of the source is held with the candidate it stands for. -/

def byKey (candidates : List (CandidatePeer D)) : SortedMap DeviceId (List (CandidatePeer D × ℕ)) :=
  SortedMap.groupBy (fun entry => entry.1.meshId C) candidates.zipIdx

section

variable {T : Type} [LinearOrder T] (parseSeen : Text → Option T)

/-- When a candidate was seen; one whose time does not parse was seen before all others. -/
def seenAt (candidate : CandidatePeer D) : WithBot T :=
  match candidate.lastSeenAt.bind parseSeen with
  | some time => time
  | none => ⊥

/-- The first of the entries with the latest sighting. -/
def latestSeen (first : CandidatePeer D × ℕ) (rest : List (CandidatePeer D × ℕ)) : CandidatePeer D × ℕ :=
  rest.foldl (fun best entry => if seenAt parseSeen best.1 < seenAt parseSeen entry.1 then entry else best) first

/-- The entry of a group that is kept: this node itself, or the one seen last. -/
def keptEntry (first : CandidatePeer D × ℕ) (rest : List (CandidatePeer D × ℕ)) : CandidatePeer D × ℕ :=
  ((first :: rest).find? (·.1.isSelf)).getD (latestSeen parseSeen first rest)

def mergeAlwaysOn : Option Bool → Option Bool → Option Bool
  | some true, _ | _, some true => some true
  | some false, _ | _, some false => some false
  | none, none => none

def pushMissing (known : List Text) (endpoint : Text) : List Text :=
  if endpoint ∈ known then known else known ++ [endpoint]

def absorbOne (merged sibling : CandidatePeer D) : CandidatePeer D :=
  { merged with
    alwaysOn := mergeAlwaysOn merged.alwaysOn sibling.alwaysOn
    alwaysOnReady := merged.alwaysOnReady || sibling.alwaysOnReady
    endpoints := sibling.endpoints.foldl pushMissing merged.endpoints }

def absorb (kept : CandidatePeer D × ℕ) (indices : List (CandidatePeer D × ℕ)) : CandidatePeer D :=
  indices.foldl (fun merged entry => if entry.2 = kept.2 then merged else absorbOne merged entry.1) kept.1

/-- What the pass over the groups has found: the indices that go and the candidates that change. -/
structure Merging (D : Type) where
  dropped : List ℕ
  absorbed : SortedMap ℕ (CandidatePeer D)

def mergeGroup (found : Merging D) : List (CandidatePeer D × ℕ) → Merging D
  | first :: second :: rest =>
    let indices := first :: second :: rest
    let kept := keptEntry parseSeen first (second :: rest)
    ⟨found.dropped ++ (indices.map Prod.snd).filter (· ≠ kept.2),
      found.absorbed.insert kept.2 (absorb kept indices)⟩
  | _ => found

/-- `merge_shared_keys`; `order` is the order in which the hash map gives its values. -/
def mergeSharedKeys (order : List (List (CandidatePeer D × ℕ)) → List (List (CandidatePeer D × ℕ)))
    (candidates : List (CandidatePeer D)) : List (CandidatePeer D) :=
  if ¬ (candidates.map CandidatePeer.deviceId).Nodup then candidates
  else
    let found := (order (byKey C candidates).values).foldl (mergeGroup parseSeen) ⟨[], ∅⟩
    (candidates.zipIdx.filter fun entry => entry.2 ∉ found.dropped).map fun entry =>
      (found.absorbed.get? entry.2).getD entry.1

end

end ProxyNode.Roster
