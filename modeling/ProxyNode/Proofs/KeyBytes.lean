import ProxyNode.Base.Lists
import ProxyNode.Spec.SqlLog
import ProxyNode.Spec.WireKeys

/-! The 72-byte form of an order key is an order embedding, so a blob comparison in SQL is
the comparison of the keys, and a table that only ever raises its blobs holds the greatest
key it was shown. -/

namespace ProxyNode

open Wire List Option SortedMap

namespace OrderKey

theorem fromWire_toWire (key : OrderKey) : fromWire key.toWire = key := by
  obtain ⟨hlc, ⟨device, hdev⟩, ⟨opId, hopId⟩⟩ := key
  simp only [fromWire, toWire, mk.injEq, Subtype.mk.injEq]
  refine ⟨?_, ?_, ?_⟩
  · rw [take_left' (length_be64 _), beVal_be64]
    exact Fin.ofNat_val_eq_self hlc
  · rw [drop_left' (length_be64 _), take_left' hdev]
  · rw [← append_assoc, drop_left' (by rw [length_append, length_be64, hdev])]

theorem lt_iff (a b : OrderKey) : a < b ↔ a.hlc < b.hlc ∨
    a.hlc = b.hlc ∧ (a.device < b.device ∨ a.device = b.device ∧ a.opId < b.opId) := by
  change toLex (a.hlc, toLex (a.device, a.opId)) < toLex (b.hlc, toLex (b.device, b.opId)) ↔ _
  rw [Prod.Lex.toLex_lt_toLex, Prod.Lex.toLex_lt_toLex]

theorem toWire_lt (a b : OrderKey) : a < b ↔ a.toWire.1 < b.toWire.1 := by
  have hhlc : be64 a.hlc.val = be64 b.hlc.val ↔ a.hlc = b.hlc :=
    ⟨fun h => be64_injective h, fun h => by rw [h]⟩
  have hlen : (be64 a.hlc.val).length = (be64 b.hlc.val).length := rfl
  have hdev : a.device.1.length = b.device.1.length := a.device.2.trans b.device.2.symm
  rw [lt_iff]
  dsimp only [toWire]
  rw [append_lt_append_iff hlen, append_lt_append_iff hdev, lt_iff_beVal_lt hlen, beVal_be64, beVal_be64,
    hhlc, Subtype.ext_iff]
  rfl

theorem toWire_max (a b : OrderKey) : (max a b).toWire.1 = max a.toWire.1 b.toWire.1 := by
  have hmono : Monotone fun key : OrderKey => key.toWire.1 :=
    StrictMono.monotone fun a b h => (toWire_lt a b).1 h
  exact hmono.map_max

end OrderKey

theorem toArray?_val {n : ℕ} (bytes : Bytes n) : toArray? n bytes.1 = some bytes :=
  toArray?_eq_some.2 rfl

namespace CoverageVector

theorem fromWirePair_toWirePair {origin : DeviceId} {key : OrderKey} (h : key.device = origin) :
    OriginHead.fromWirePair (OriginHead.mk origin key).toWirePair.1 (OriginHead.mk origin key).toWirePair.2 =
      some ⟨origin, key⟩ := by
  simp [OriginHead.fromWirePair, OriginHead.toWirePair, fromHex_toHex, decodeHex_encodeHex, toArray?_val,
    OrderKey.fromWire_toWire, h]

theorem mem_pairs {c : CoverageVector} {s t : String} :
    (s, t) ∈ c.claims.entries.map (fun e => (OriginHead.mk e.1 e.2).toWirePair) ↔
      ∃ origin key, c.claims.get? origin = some key ∧ (OriginHead.mk origin key).toWirePair = (s, t) := by
  simp [get?_eq_some]

theorem get?_toWireMap {c : CoverageVector} {origin : DeviceId} {key : OrderKey}
    (h : c.claims.get? origin = some key) :
    c.toWireMap.get? (OriginHead.mk origin key).toWirePair.1 = some (OriginHead.mk origin key).toWirePair.2 := by
  apply get?_collect
  intro t
  rw [mem_pairs, some.injEq]
  constructor
  · rintro ⟨origin', key', hkey', hpair⟩
    -- one hex text has one origin, and an origin one claim
    obtain ⟨hs, ht⟩ := Prod.mk.inj hpair
    obtain rfl := toHex_injective hs
    obtain rfl := some.inj (hkey'.symm.trans h)
    exact ht
  · rintro rfl
    exact ⟨origin, key, h, rfl⟩

theorem wireClaims_toWireMap (c : CoverageVector) (origin : DeviceId) (key : OrderKey) :
    (origin, key) ∈ wireClaims c.toWireMap ↔ c.claims.get? origin = some key := by
  rw [mem_wireClaims]
  constructor
  · rintro ⟨s, t, hst, hent⟩
    obtain ⟨origin', key', hkey, hpair⟩ := mem_pairs.1 (mem_of_get?_collect hst)
    obtain ⟨rfl, rfl⟩ := Prod.mk.inj hpair
    have hown := fromWirePair_toWirePair (c.own _ _ hkey)
    obtain ⟨rfl, rfl⟩ := OriginHead.mk.inj (some.inj (hown.symm.trans hent))
    exact hkey
  · intro hkey
    exact ⟨_, _, get?_toWireMap hkey, fromWirePair_toWirePair (c.own origin key hkey)⟩

theorem fromWireMap_toWireMap (c : CoverageVector) : fromWireMap c.toWireMap = c := by
  have hmap : collect (wireClaims c.toWireMap) = c.claims :=
    ext_get? fun origin => get?_collect (c.wireClaims_toWireMap origin)
  unfold fromWireMap
  congr

end CoverageVector

/-! ## The tables -/

def raised (stored : Option OrderKey) (key : OrderKey) : OrderKey :=
  stored.elim key fun stored => max stored key

theorem raise_row {table : SortedMap (List Byte) (List Byte)} {device : DeviceId} {stored : Option OrderKey}
    (h : table.get? device.1 = stored.map fun key => key.toWire.1) (origin : DeviceId) (key : OrderKey) :
    (table.raise origin.1 key.toWire.1).get? device.1 =
      (if device = origin then some (raised stored key) else stored).map fun key => key.toWire.1 := by
  rw [get?_raise]
  by_cases hd : device = origin
  · subst hd
    rw [if_pos rfl, if_pos rfl, h]
    cases stored with
    | none => rfl
    | some stored => exact congrArg some (OrderKey.toWire_max stored key).symm
  · rw [if_neg (fun heq => hd (Subtype.ext heq)), if_neg hd, h]

namespace KeyTables

def Fold.covered (device : DeviceId) : Fold → Option OrderKey
  | .advanceLocalCoverage origin key => if device = origin then some key else none
  | .saveCursor _ _ => none

def Fold.saved (device : DeviceId) : Fold → Option OrderKey
  | .advanceLocalCoverage _ _ => none
  | .saveCursor peer cursor => if device = peer then some cursor else none

/-- A column holds, for a device, the wire form of the greatest of the keys, if any. -/
def Greatest (table : SortedMap (List Byte) (List Byte)) (device : DeviceId) (keys : List OrderKey) : Prop :=
  table.get? device.1 = keys.max?.map fun key => key.toWire.1

variable {device : DeviceId} {keys : List OrderKey}

variable {table : SortedMap (List Byte) (List Byte)}

theorem Greatest.raise (h : Greatest table device keys) (origin : DeviceId) (key : OrderKey) :
    Greatest (table.raise origin.1 key.toWire.1) device
      (keys ++ ((if device = origin then some key else none).toList)) := by
  rw [Greatest, raise_row h]
  split_ifs with hd
  · rw [toList_some, max?_concat]
    rfl
  · rw [toList_none, append_nil]

theorem run_greatest (folds : List Fold) (device : DeviceId) :
    Greatest (folds.foldl apply empty).meshOriginCoverage device (folds.filterMap (Fold.covered device)) ∧
      Greatest (folds.foldl apply empty).syncCursors device (folds.filterMap (Fold.saved device)) := by
  induction folds using reverseRecOn with
  | nil => exact ⟨rfl, rfl⟩
  | append_singleton folds fold ih =>
    obtain ⟨hcov, hsave⟩ := ih
    have hlast (f : Fold → Option OrderKey) : [fold].filterMap f = (f fold).toList := by
      cases hf : f fold <;> simp [hf]
    rw [foldl_append, filterMap_append, filterMap_append, hlast, hlast]
    cases fold with
    | advanceLocalCoverage origin key =>
      exact ⟨hcov.raise origin key, hsave.trans (by rw [Fold.saved, toList_none, append_nil])⟩
    | saveCursor peer cursor =>
      exact ⟨hcov.trans (by rw [Fold.covered, toList_none, append_nil]), hsave.raise peer cursor⟩

theorem mem_rows {key : OrderKey} :
    (device, key) ∈ table.entries.filterMap readRow ↔
      ∃ wire : Bytes 72, table.get? device.1 = some wire.1 ∧ OrderKey.fromWire wire = key := by
  rw [mem_filterMap]
  constructor
  · rintro ⟨⟨origin, wire⟩, hrow, hread⟩
    unfold readRow at hread
    split at hread
    · next origin' wire' horg hwire =>
      cases hread
      obtain rfl := toArray?_eq_some.1 horg
      obtain rfl := toArray?_eq_some.1 hwire
      exact ⟨wire', get?_eq_some.2 hrow, rfl⟩
    · cases hread
  · rintro ⟨wire, hrow, rfl⟩
    exact ⟨_, get?_eq_some.1 hrow, by simp only [readRow, toArray?_val]⟩

theorem localCoverage_get? {db : KeyTables} (h : Greatest db.meshOriginCoverage device keys) :
    db.localCoverage.get? device = keys.max? := by
  apply get?_collect
  intro key
  rw [mem_rows, h]
  constructor
  · rintro ⟨wire, hwire, rfl⟩
    obtain ⟨key, hkey, heq⟩ := map_eq_some_iff.1 hwire
    rw [hkey, ← Subtype.ext heq, OrderKey.fromWire_toWire]
  · intro hkey
    exact ⟨key.toWire, by rw [hkey, map_some], OrderKey.fromWire_toWire key⟩

theorem loadCursor_eq {db : KeyTables} {peer : DeviceId} (h : Greatest db.syncCursors peer keys) :
    db.loadCursor peer = keys.max?.getD OrderKey.min := by
  rw [loadCursor, h]
  cases keys.max? with
  | none => rfl
  | some key =>
    rw [map_some]
    simp only [toArray?_val, map_some, OrderKey.fromWire_toWire, getD_some]

end KeyTables

/-- Keys survive the wire and keep their order on it, claims survive the hex map, and after any
folds both tables hold, and read back, the greatest key presented for each device. -/
theorem order_keys_embed :
    (∀ key : OrderKey, OrderKey.fromWire key.toWire = key) ∧
    (∀ a b : OrderKey, a < b ↔ a.toWire.1 < b.toWire.1) ∧
    (∀ c : CoverageVector, CoverageVector.fromWireMap c.toWireMap = c) ∧
    ∀ (folds : List KeyTables.Fold) (device : DeviceId),
      let db := folds.foldl KeyTables.apply KeyTables.empty
      let claim := (folds.filterMap (KeyTables.Fold.covered device)).max?
      let cursor := (folds.filterMap (KeyTables.Fold.saved device)).max?
      db.meshOriginCoverage.get? device.1 = claim.map (fun key => key.toWire.1) ∧
      db.localCoverage.get? device = claim ∧
      db.syncCursors.get? device.1 = cursor.map (fun key => key.toWire.1) ∧
      db.loadCursor device = cursor.getD OrderKey.min := by
  refine ⟨OrderKey.fromWire_toWire, OrderKey.toWire_lt, CoverageVector.fromWireMap_toWireMap, ?_⟩
  intro folds device
  obtain ⟨hcov, hsave⟩ := KeyTables.run_greatest folds device
  exact ⟨hcov, KeyTables.localCoverage_get? hcov, hsave, KeyTables.loadCursor_eq hsave⟩

end ProxyNode
