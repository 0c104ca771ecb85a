import ProxyNode.Spec.Puller

/-! The reference key/value store, and a host over it whose primitives are transparent
enough to run by evaluation. -/

namespace ProxyNode

open Wire

/-- A key/value mutation; texts are their UTF-8 bytes. -/
inductive KvOp
  | put (key value : List Byte)
  | delete (key : List Byte)
deriving DecidableEq

namespace KvOp

def key : KvOp → List Byte
  | put key _ => key
  | delete key => key

def effect : KvOp → Option (List Byte)
  | put _ value => some value
  | delete _ => none

def encode : KvOp → List Byte
  | put key value => 0 :: (blob key ++ blob value)
  | delete key => 1 :: blob key

def decodeText (l : List Byte) : Option (List Byte × List Byte) :=
  (takeBlob l).bind fun p => if validUtf8 p.1 then some p else none

def decode (payload : List Byte) : Option KvOp :=
  match takeVarint32 payload with
  | some (0, rest) =>
    (decodeText rest).bind fun p => (takeBlob p.2).map fun q => .put p.1 q.1
  | some (1, rest) => (decodeText rest).map fun p => .delete p.1
  | _ => none

end KvOp

def kvStoreId : StoreId := ⟨ascii "kv", by decide +kernel⟩

abbrev KvStore := SortedMap (List Byte) (List Byte)

/-- Apply one mutation; the order of the calls decides the winner. -/
def KvStore.apply (data : KvStore) : KvOp → KvStore
  | .put key value => data.insert key value
  | .delete key => data.erase key

/-- The key/value store as a store adapter; what the codec crate adds to its error text is
left out. -/
def kvStore : Store where
  State := KvStore
  Op := KvOp
  storeId := fun _ => kvStoreId
  decode := fun _ payload => match KvOp.decode payload with
    | some op => .ok op
    | none => .error "kv payload codec error"
  apply := fun data _ op => (KvStore.apply data op, none)

theorem kvStore_decode {payload : List Byte} {op : KvOp} (h : KvOp.decode payload = some op)
    (st : kvStore.State) : kvStore.decode st payload = .ok op := by
  simp only [kvStore, h]

/-! ## A transparent host -/

def padTo (n : ℕ) (l : List Byte) : Bytes n :=
  ⟨(l ++ List.replicate n 0).take n, by simp⟩

theorem padTo_append {n : ℕ} (l : Bytes n) (r : List Byte) : padTo n (l.1 ++ r) = l := by
  apply Subtype.ext
  change (l.1 ++ r ++ List.replicate n 0).take n = l.1
  rw [List.append_assoc]
  exact List.take_left' l.2

theorem padTo_padTo (key : Bytes 32) : padTo 32 (padTo 33 key.1).1 = key := by
  have h : (padTo 33 key.1).1 = key.1 ++ [0] := by
    change (key.1 ++ List.replicate 33 0).take 33 = key.1 ++ [0]
    rw [List.take_append, List.take_of_length_le (by rw [key.2]; decide), key.2]
    rfl
  rw [h, padTo_append]

/-- Primitives that show what they are given: a digest is the first bytes of its input, a
signature the first bytes of its message, and a key is its own device id. -/
def plainCrypto : Crypto where
  Key := Bytes 32
  Secret := Bytes 32
  Signature := Bytes 64
  sha256 := padTo 32
  sec1Compressed := fun key => padTo 33 key.1
  keyOfSec1 := fun sec1 => some (padTo 32 sec1.1)
  keyOfSec1_sec1Compressed := fun key => congrArg some (padTo_padTo key)
  signatureBytes := id
  signatureOfBytes := some
  signatureOfBytes_signatureBytes := fun _ => rfl
  normalizeS := fun _ => none
  verifyingKey := id
  sign := fun _ message => padTo 64 message
  verify := fun _ message sig => sig = padTo 64 message

theorem plainCrypto_deviceIdOfKey (key : Bytes 32) : plainCrypto.deviceIdOfKey key = key := padTo_padTo key

theorem sealOp_verify (body : OpBody) (secret : Bytes 32) :
    (SignedOp.sealOp plainCrypto body secret).verify plainCrypto secret = .ok () := by
  simp [SignedOp.verify, SignedOp.sealOp, plainCrypto]

/-- A host over the key/value store whose clock takes every reading. -/
def plainHost : Host where
  crypto := plainCrypto
  Clock := Unit
  clockUpdate := fun _ _ _ => .ok ()
  store := kvStore

theorem plainHost_deviceId_injective : Function.Injective plainHost.crypto.deviceIdOfKey := by
  intro a b h
  exact (plainCrypto_deviceIdOfKey a).symm.trans (h.trans (plainCrypto_deviceIdOfKey b))

def plainOp (secret : Bytes 32) (hlc : Hlc) (payload : Payload) : SignedOp :=
  SignedOp.sealOp plainCrypto ⟨envelopeVersion, hlc, padTo 32 [], kvStoreId, payload⟩ secret

def plainPut (secret : Bytes 32) (hlc : Hlc) : SignedOp :=
  plainOp secret hlc ⟨KvOp.encode (.put (ascii "k") (ascii "v")), by decide⟩

def plainLog (ops : List SignedOp) : OpLog :=
  ops.foldl (fun log op => (log.append op).1) (.new (fill 32 9))

def plainPuller (keys : List (Bytes 32)) : OpLogPullSocket plainHost where
  clock := ()
  registry := keys.foldl .insertKey .new
  log := .new (fill 32 5)
  store := (∅ : KvStore)
  coverage := .new
  cursors := ∅

def pageOfOne : PageLimits := ⟨1, 1024, by decide, by decide⟩

def twoOrigins : OpLog := plainLog [plainPut (padTo 32 [7]) 20, plainPut (padTo 32 [5]) 10]

end ProxyNode
