import Mathlib.Data.String.Basic
import ProxyNode.Spec.Pull

/-! Order keys as bytes: the 72-byte form, the hex map a pull request carries its claims
in, and the two tables that keep one key per device as a blob. -/

namespace ProxyNode

open Wire

namespace OrderKey

/-- Big-endian clock, then the device, then the op id. -/
def toWire (key : OrderKey) : Bytes 72 :=
  ⟨be64 key.hlc.val ++ (key.device.1 ++ key.opId.1), by simp [key.device.2, key.opId.2]⟩

def fromWire (bytes : Bytes 72) : OrderKey where
  hlc := Fin.ofNat _ (beVal (bytes.1.take 8))
  device := ⟨(bytes.1.drop 8).take 32, by simp [bytes.2]⟩
  opId := ⟨bytes.1.drop 40, by simp [bytes.2]⟩

end OrderKey

def toArray? (n : ℕ) (bytes : List Byte) : Option (Bytes n) :=
  if h : bytes.length = n then some ⟨bytes, h⟩ else none

theorem toArray?_eq_some {n : ℕ} {l : List Byte} {bytes : Bytes n} : toArray? n l = some bytes ↔ l = bytes.1 := by
  unfold toArray?
  constructor
  · intro h
    split_ifs at h
    rw [← Option.some.inj h]
  · rintro rfl
    exact dif_pos bytes.2

structure OriginHead where
  origin : DeviceId
  head : OrderKey

namespace OriginHead

def toWirePair (entry : OriginHead) : String × String :=
  (toHex entry.origin, encodeHex entry.head.toWire.1)

def fromWirePair (originHex headHex : String) : Option OriginHead := do
  let origin ← fromHex originHex
  let wire ← (← decodeHex headHex) |> toArray? 72
  let head := OrderKey.fromWire wire
  if head.device = origin then some ⟨origin, head⟩ else none

theorem own_of_fromWirePair {originHex headHex : String} {entry : OriginHead}
    (h : fromWirePair originHex headHex = some entry) : entry.head.device = entry.origin := by
  simp only [fromWirePair, Option.bind_eq_bind, Option.bind_eq_some_iff] at h
  obtain ⟨origin, -, bytes, -, wire, -, h⟩ := h
  split_ifs at h with hown
  obtain rfl := Option.some.inj h
  exact hown

end OriginHead

namespace CoverageVector

def toWireMap (c : CoverageVector) : SortedMap String String :=
  .collect (c.claims.entries.map fun e => (OriginHead.mk e.1 e.2).toWirePair)

/-- The claims a wire map spells; a pair that does not decode is left out. -/
def wireClaims (wire : SortedMap String String) : List (DeviceId × OrderKey) :=
  (wire.entries.filterMap fun e => OriginHead.fromWirePair e.1 e.2).map fun e => (e.origin, e.head)

theorem mem_wireClaims {wire : SortedMap String String} {origin : DeviceId} {key : OrderKey} :
    (origin, key) ∈ wireClaims wire ↔
      ∃ s t, wire.get? s = some t ∧ OriginHead.fromWirePair s t = some ⟨origin, key⟩ := by
  simp only [wireClaims, List.mem_map, List.mem_filterMap, Prod.exists, SortedMap.get?_eq_some]
  constructor
  · rintro ⟨⟨_, _⟩, ⟨s, t, hst, hent⟩, ⟨⟩⟩
    exact ⟨s, t, hst, hent⟩
  · rintro ⟨s, t, hst, hent⟩
    exact ⟨⟨origin, key⟩, ⟨s, t, hst, hent⟩, rfl⟩

def fromWireMap (wire : SortedMap String String) : CoverageVector where
  claims := .collect (wireClaims wire)
  own := by
    intro origin key h
    obtain ⟨s, t, -, hent⟩ := mem_wireClaims.1 (SortedMap.mem_of_get?_collect h)
    exact OriginHead.own_of_fromWirePair hent

end CoverageVector

/-- The tables `mesh_origin_coverage` and `sync_cursors`, blob columns by blob keys. -/
structure KeyTables where
  meshOriginCoverage : SortedMap (List Byte) (List Byte)
  syncCursors : SortedMap (List Byte) (List Byte)

namespace KeyTables

def empty : KeyTables := ⟨∅, ∅⟩

/-- `INSERT .. ON CONFLICT DO UPDATE .. WHERE coverage < excluded.coverage`; blobs compare
byte by byte. -/
def advanceLocalCoverage (db : KeyTables) (origin : DeviceId) (key : OrderKey) : KeyTables :=
  { db with meshOriginCoverage := db.meshOriginCoverage.raise origin.1 key.toWire.1 }

def saveCursor (db : KeyTables) (peer : DeviceId) (cursor : OrderKey) : KeyTables :=
  { db with syncCursors := db.syncCursors.raise peer.1 cursor.toWire.1 }

/-- A row as read back; one whose blobs have another length is skipped. -/
def readRow (row : List Byte × List Byte) : Option (DeviceId × OrderKey) :=
  match toArray? 32 row.1, toArray? 72 row.2 with
  | some origin, some wire => some (origin, OrderKey.fromWire wire)
  | _, _ => none

def localCoverage (db : KeyTables) : SortedMap DeviceId OrderKey :=
  .collect (db.meshOriginCoverage.entries.filterMap readRow)

def loadCursor (db : KeyTables) (peer : DeviceId) : OrderKey :=
  match db.syncCursors.get? peer.1 with
  | some bytes => ((toArray? 72 bytes).map OrderKey.fromWire).getD OrderKey.min
  | none => OrderKey.min

inductive Fold
  | advanceLocalCoverage (origin : DeviceId) (key : OrderKey)
  | saveCursor (peer : DeviceId) (cursor : OrderKey)

def apply (db : KeyTables) : Fold → KeyTables
  | .advanceLocalCoverage origin key => db.advanceLocalCoverage origin key
  | .saveCursor peer cursor => db.saveCursor peer cursor

end KeyTables

end ProxyNode
