import ProxyNode.Spec.Pull

/-! The pulling side's socket: registry, clock, log, store, claims and saved cursors, and
the admission of relayed ops. What a call changes is given as the list of its effects in
program order, so that a process stopped on the way keeps an initial part of them. -/

namespace ProxyNode

/-- Code a node takes from outside: signatures, the hybrid clock, the store. -/
structure Host where
  crypto : Crypto
  Clock : Type
  /-- Fold a remote reading, or say why the drift guard refuses it. -/
  clockUpdate : Clock → Hlc → DeviceId → Except String Clock
  store : Store

/-- Known verifying keys, each under the device id it derives. -/
structure DeviceRegistry (C : Crypto) where
  keys : SortedMap DeviceId C.Key
  derives : ∀ id key, keys.get? id = some key → C.deviceIdOfKey key = id

namespace DeviceRegistry

variable {C : Crypto}

def new : DeviceRegistry C := ⟨∅, by simp⟩

def insertKey (registry : DeviceRegistry C) (key : C.Key) : DeviceRegistry C where
  keys := registry.keys.insert (C.deviceIdOfKey key) key
  derives := by
    intro id key' h
    rw [SortedMap.get?_insert] at h
    split_ifs at h with hid
    · obtain rfl := Option.some.inj h
      exact hid.symm
    · exact registry.derives id key' h

def keyFor (registry : DeviceRegistry C) (id : DeviceId) : Option C.Key := registry.keys.get? id

end DeviceRegistry

namespace CoverageVector

def insert (c : CoverageVector) (origin : DeviceId) (key : OrderKey) (h : key.device = origin) :
    CoverageVector where
  claims := c.claims.insert origin key
  own := by
    intro origin' key' h'
    rw [SortedMap.get?_insert] at h'
    split_ifs at h' with ho
    · obtain rfl := Option.some.inj h'
      rw [h, ho]
    · exact c.own origin' key' h'

/-- Raise the claim for `origin` to `key`; a lower key changes nothing. -/
def advance (c : CoverageVector) (origin : DeviceId) (key : OrderKey) (h : key.device = origin) :
    CoverageVector where
  claims := c.claims.upsert origin (fun existing => if existing < key then key else existing) key
  own := by
    intro origin' key' h'
    rw [SortedMap.get?_upsert] at h'
    split_ifs at h' with ho
    · subst ho
      cases hc : c.claims.get? origin' with
      | none =>
        rw [hc] at h'
        obtain rfl := Option.some.inj h'
        exact h
      | some existing =>
        rw [hc, Option.map_some, Option.getD_some, Option.some.injEq] at h'
        split_ifs at h'
        · rw [← h', h]
        · rw [← h', c.own origin' existing hc]
    · exact c.own origin' key' h'

end CoverageVector

variable {H : Host}

structure OpLogPullSocket (H : Host) where
  clock : H.Clock
  registry : DeviceRegistry H.crypto
  log : OpLog
  store : H.store.State
  coverage : CoverageVector
  cursors : SortedMap DeviceId RelayCursor

inductive Effect (H : Host)
  | clock (clock : H.Clock)
  | append (op : SignedOp)
  | replay
  | saveRelayCursor (peer : DeviceId) (cursor : RelayCursor)
  | resetRelayCursor (peer : DeviceId) (cursor : RelayCursor)
  | advanceLocalCoverage (origin : DeviceId) (key : OrderKey) (h : key.device = origin)

namespace OpLogPullSocket

/-- Within an epoch a saved cursor only grows; another epoch replaces it. -/
def saveRelayCursor (cursors : SortedMap DeviceId RelayCursor) (peer : DeviceId) (cursor : RelayCursor) :
    SortedMap DeviceId RelayCursor :=
  cursors.upsert peer
    (fun existing =>
      if existing.epoch = cursor.epoch then { existing with after := max existing.after cursor.after }
      else cursor)
    cursor

def perform (p : OpLogPullSocket H) : Effect H → OpLogPullSocket H
  | .clock clock => { p with clock := clock }
  | .append op => { p with log := (p.log.append op).1 }
  | .replay => { p with store := (H.store.replay p.log p.store).1 }
  | .saveRelayCursor peer cursor => { p with cursors := saveRelayCursor p.cursors peer cursor }
  | .resetRelayCursor peer cursor => { p with cursors := p.cursors.insert peer cursor }
  | .advanceLocalCoverage origin key h => { p with coverage := p.coverage.advance origin key h }

def after (p : OpLogPullSocket H) (effects : List (Effect H)) : OpLogPullSocket H :=
  effects.foldl perform p

/-! ## Admission -/

/-- The loop of `admit_ops`: what it did, the length of the prefix it went through,
whether the log grew, and what stopped it. -/
structure AdmitLoop (H : Host) where
  effects : List (Effect H)
  admitted : ℕ
  appended : Bool
  error : Option String

def admitLoop (skipUnattested : Bool) : List SignedOp → OpLogPullSocket H → AdmitLoop H
  | [], _ => ⟨[], 0, false, none⟩
  | op :: ops, p =>
    match p.registry.keyFor op.body.device with
    | none =>
      if skipUnattested then
        let rest := admitLoop skipUnattested ops p
        { rest with admitted := rest.admitted + 1 }
      else ⟨[], 0, false, some ("unknown signing device " ++ toHex op.body.device)⟩
    | some verifying =>
      match op.verify H.crypto verifying with
      | .error e => ⟨[], 0, false, some ("verify op " ++ toHex op.id ++ ": " ++ e.text)⟩
      | .ok () =>
        match H.clockUpdate p.clock op.body.hlc op.body.device with
        | .error e =>
          ⟨[], 0, false, some ("clock update " ++ toHex op.id ++
            ": remote clock rejected by drift guard: " ++ e)⟩
        | .ok clock =>
          let effects := [.clock clock, .append op]
          let rest := admitLoop skipUnattested ops (p.after effects)
          ⟨effects ++ rest.effects, rest.admitted + 1, (p.log.append op).2 || rest.appended, rest.error⟩

structure PullAdmission (H : Host) where
  effects : List (Effect H)
  admitted : ℕ
  claimSafe : ℕ
  error : Option String

/-- Verify, clock-check and append each op, then replay the store if the log grew. A
failed replay is reported in place of the loop's own error. -/
def admitOps (p : OpLogPullSocket H) (ops : List SignedOp) (skipUnattested : Bool) : PullAdmission H :=
  let loop := admitLoop skipUnattested ops p
  let p := p.after loop.effects
  if loop.appended then
    { effects := loop.effects ++ [.replay]
      admitted := loop.admitted
      claimSafe := loop.admitted
      error := match (H.store.replay p.log p.store).2 with
        | some e => some ("replay store: " ++ e)
        | none => loop.error }
  else
    { effects := loop.effects
      admitted := loop.admitted
      claimSafe := loop.admitted
      error := loop.error }

end OpLogPullSocket

end ProxyNode
