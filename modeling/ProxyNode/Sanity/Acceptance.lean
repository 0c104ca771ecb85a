import ProxyNode.Sanity.Outcome
import ProxyNode.Spec.Kv

/-! Pages that nothing refuses. Ops of the wire version, signed by registered devices and
taken by the clock and the store, are admitted to the last one, so a page made of them
goes through. -/

namespace ProxyNode

open OpLogPullSocket List

def Store.Takes (S : Store) (op : SignedOp) : Prop :=
  ∀ st₀, op.body.store = S.storeId st₀ → ∀ st, ∃ native, S.decode st op.body.payload.1 = .ok native ∧
    (S.apply st ⟨op.id, op.orderKey, op.body.hlc, op.body.device⟩ native).2 = none

theorem Store.applyLoop_takes {S : Store} (st₀ : S.State) {ops : List SignedOp}
    (h : ∀ op ∈ ops, S.Takes op) (st : S.State) : (S.applyLoop (S.storeId st₀) ops st).2 = none := by
  induction ops generalizing st with
  | nil => rfl
  | cons op ops ih =>
    have hrest := ih fun x hx => h x (mem_cons_of_mem _ hx)
    rw [applyLoop]
    split_ifs with hs
    · exact hrest st
    · obtain ⟨native, hd, ha⟩ := h op mem_cons_self st₀ (not_not.1 hs) st
      generalize hap : S.apply st ⟨op.id, op.orderKey, op.body.hlc, op.body.device⟩ native = r
      obtain ⟨st', e⟩ := r
      rw [hap] at ha
      obtain rfl : e = none := ha
      simp only [hd, hap]
      exact hrest st'

variable {H : Host} (calm : H.Clock → Prop)

/-- Nothing at a node with this registry refuses the op while its clock is calm. -/
structure Welcome (registry : DeviceRegistry H.crypto) (op : SignedOp) : Prop where
  version : op.body.v = envelopeVersion
  signed : ∃ key, registry.keyFor op.body.device = some key ∧ op.verify H.crypto key = .ok ()
  clock : ∀ c, calm c → ∃ c', H.clockUpdate c op.body.hlc op.body.device = .ok c' ∧ calm c'
  store : H.store.Takes op

structure Ready (p : OpLogPullSocket H) : Prop where
  clock : calm p.clock
  held : ∀ op ∈ p.log.arrivals, H.store.Takes op

variable {calm} {p : OpLogPullSocket H} {peer : DeviceId} {ops : List SignedOp}

theorem Ready.replay (h : Ready calm p) (st : H.store.State) : (H.store.replay p.log st).2 = none := by
  refine Store.applyLoop_takes st (fun op hop => h.held op ?_) st
  obtain ⟨e, he, rfl⟩ := mem_map.1 hop
  exact (OpLog.entry_arrived he).2

theorem Ready.append (h : Ready calm p) {op : SignedOp} (hop : H.store.Takes op) {c : H.Clock} (hc : calm c) :
    Ready calm (p.after [.clock c, .append op]) := by
  refine ⟨hc, fun x hx => ?_⟩
  rcases OpLog.mem_arrivals_append hx with hx | rfl
  · exact h.held x hx
  · exact hop

theorem admitLoop_welcome (h : Ready calm p) (hw : ∀ op ∈ ops, Welcome calm p.registry op) :
    (admitLoop false ops p).error = none ∧ Ready calm (p.after (admitLoop false ops p).effects) := by
  induction ops generalizing p with
  | nil => exact ⟨rfl, h⟩
  | cons op ops ih =>
    obtain ⟨-, ⟨key, hk, hv⟩, hclk, hsto⟩ := hw op mem_cons_self
    obtain ⟨c, hc, hcalm⟩ := hclk p.clock h.clock
    have hrest := ih (h.append hsto hcalm) fun x hx => by
      rw [after_registry]
      exact hw x (mem_cons_of_mem _ hx)
    simp only [admitLoop, hk, hv, hc, after_append]
    exact hrest

theorem admitOps_welcome (h : Ready calm p) (hw : ∀ op ∈ ops, Welcome calm p.registry op) :
    (p.admitOps ops false).error = none ∧ Ready calm (p.after (p.admitOps ops false).effects) := by
  obtain ⟨he, hr⟩ := admitLoop_welcome h hw
  constructor
  · unfold admitOps
    dsimp only
    split_ifs
    · rw [hr.replay, he]
    · exact he
  · constructor
    · rw [admitOps_clock]
      exact hr.clock
    · rw [admitOps_log]
      exact hr.held

/-! ## Registered signers -/

/-- Skipping unattested ops makes no difference where every signer is registered. -/
theorem admitLoop_registered (h : ∀ op ∈ ops, (p.registry.keyFor op.body.device).isSome) (skip : Bool) :
    admitLoop skip ops p = admitLoop false ops p := by
  induction ops generalizing p with
  | nil => rfl
  | cons op ops ih =>
    obtain ⟨key, hk⟩ := Option.isSome_iff_exists.1 (h op mem_cons_self)
    simp only [admitLoop, hk]
    cases op.verify H.crypto key with
    | error e => rfl
    | ok u =>
      dsimp only
      cases H.clockUpdate p.clock op.body.hlc op.body.device with
      | error e => rfl
      | ok c =>
        dsimp only
        rw [ih fun x hx => by rw [after_registry]; exact h x (mem_cons_of_mem _ hx)]

theorem admitOps_registered (h : ∀ op ∈ ops, (p.registry.keyFor op.body.device).isSome) (skip : Bool) :
    p.admitOps ops skip = p.admitOps ops false := by
  simp only [admitOps, admitLoop_registered h skip]

theorem applyRuns_registered {runs : List KeyedRun}
    (h : ∀ run ∈ runs, ∀ op ∈ run.ops, (p.registry.keyFor op.body.device).isSome) (skip : Bool) :
    applyRuns skip runs p = applyRuns false runs p := by
  induction runs generalizing p with
  | nil => rfl
  | cons run runs ih =>
    have hrun : applyRun p run skip = applyRun p run false := by
      simp only [applyRun, admitOps_registered (h run mem_cons_self) skip]
    simp only [applyRuns, hrun]
    cases (applyRun p run false).error with
    | some e => rfl
    | none =>
      dsimp only
      rw [ih fun r hr op hop => by rw [after_registry]; exact h r (mem_cons_of_mem _ hr) op hop]

variable {page : PullPage} {entries : List (ℕ × SignedOp)} {cur : RelayCursor}

theorem applyChannels_registered {segs : List Segment} (hback : page.backfill = backfillEntries entries)
    (hkey : page.keyed = segmentEntries segs) (hsrt : ∀ s ∈ segs, s.Sorted)
    (hvis : VisitSorted (segs.map Prod.fst)) (hb : ∀ e ∈ entries, (p.registry.keyFor e.2.body.device).isSome)
    (hk : ∀ s ∈ segs, ∀ op ∈ s.2, (p.registry.keyFor op.body.device).isSome) (skip : Bool) :
    applyChannels p peer cur page skip = applyChannels p peer cur page false := by
  have hpos : applyBackfill p peer cur page skip = applyBackfill p peer cur page false := by
    unfold applyBackfill
    cases hd : decodeBackfill peer cur.after cur.after page.backfill with
    | error e => rfl
    | ok entries' =>
      rw [hback] at hd
      obtain ⟨rfl, -⟩ := decodeBackfill_ok hd
      dsimp only
      rw [admitOps_registered (fun op hop => ?_) skip]
      obtain ⟨e, he, rfl⟩ := mem_map.1 hop
      exact hb e he
  simp only [applyChannels, hpos, applyKeyed]
  cases hs : splitRuns peer page.keyed [] none with
  | error e => rfl
  | ok runs =>
    rw [hkey] at hs
    obtain ⟨runs', hs', hmap⟩ := splitRuns_segments peer hsrt (splitRuns_versions hs) hvis
    obtain rfl : runs' = runs := Except.ok.inj (hs'.symm.trans hs)
    have hreg : ∀ (q : OpLogPullSocket H), q.registry = p.registry →
        applyRuns skip runs'.reverse q = applyRuns false runs'.reverse q := by
      intro q hq
      refine applyRuns_registered (fun run hrun op hop => ?_) skip
      rw [hq]
      exact hk _ (mem_filter.1 (hmap ▸ mem_map_of_mem hrun)).1 op hop
    simp only [hreg _ (after_registry _ _)]

/-! ## Whole pages -/

theorem Ready.raiseClaim (h : Ready calm p) (run : KeyedRun) (n : ℕ) :
    Ready calm (p.after (raiseClaim run n)) := by
  rcases raiseClaim_cases (H := H) run n with ⟨he, -⟩ | ⟨op, hop, -, -, he⟩
  · rw [he]
    exact h
  · rw [he]
    exact ⟨h.clock, h.held⟩

theorem Ready.save (h : Ready calm p) (cursor : RelayCursor) :
    Ready calm (p.perform (.saveRelayCursor peer cursor)) :=
  ⟨h.clock, h.held⟩

theorem applyRuns_welcome {runs : List KeyedRun} (h : Ready calm p)
    (hw : ∀ run ∈ runs, ∀ op ∈ run.ops, Welcome calm p.registry op) :
    (applyRuns false runs p).error = none ∧ Ready calm (p.after (applyRuns false runs p).effects) := by
  induction runs generalizing p with
  | nil => exact ⟨rfl, h⟩
  | cons run runs ih =>
    obtain ⟨he, hr⟩ := admitOps_welcome h (hw run mem_cons_self)
    have hfst : Ready calm (p.after (applyRun p run false).effects) := by
      rw [applyRun_effects, after_append]
      exact hr.raiseClaim _ _
    obtain ⟨he', hr'⟩ := ih hfst fun r hm op hop => by
      rw [after_registry]
      exact hw r (mem_cons_of_mem _ hm) op hop
    have herr : (applyRun p run false).error = none := he
    simp only [applyRuns, herr, after_append]
    exact ⟨he', hr'⟩

theorem applyBackfill_welcome (h : Ready calm p) (hback : page.backfill = backfillEntries entries)
    (hadv : Advancing cur.after entries) (hw : ∀ e ∈ entries, Welcome calm p.registry e.2)
    {progress : Progress H} {cursor : RelayCursor}
    (hres : applyBackfill p peer cur page false = (progress, cursor)) :
    progress.error = none ∧ Ready calm (p.after progress.effects) := by
  have hdec : decodeBackfill peer cur.after cur.after (backfillEntries entries) = .ok entries :=
    decodeBackfill_entries hadv fun e he => (hw e he).version
  unfold applyBackfill at hres
  rw [hback, hdec] at hres
  obtain ⟨rfl, rfl⟩ := Prod.mk.inj hres
  have h1 : Ready calm (p.after [.saveRelayCursor peer cur]) := h.save cur
  have hops : ∀ op ∈ entries.map Prod.snd, Welcome calm p.registry op := by
    intro op hop
    obtain ⟨e, hm, rfl⟩ := mem_map.1 hop
    exact hw e hm
  obtain ⟨he, hr⟩ := admitOps_welcome h1 hops
  refine ⟨he, ?_⟩
  simp only [after_append]
  rcases followAdmitted_effects (H := H) peer cur entries
    ((p.after [.saveRelayCursor peer cur]).admitOps (entries.map Prod.snd) false).admitted with hf | hf
  · rw [hf]
    exact hr
  · rw [hf]
    exact hr.save _

theorem applyChannels_welcome (peer : DeviceId) {segs : List Segment} (h : Ready calm p)
    (hback : page.backfill = backfillEntries entries) (hadv : Advancing cur.after entries)
    (hkey : page.keyed = segmentEntries segs) (hsrt : ∀ s ∈ segs, s.Sorted)
    (hvis : VisitSorted (segs.map Prod.fst)) (hwb : ∀ e ∈ entries, Welcome calm p.registry e.2)
    (hwk : ∀ s ∈ segs, ∀ op ∈ s.2, Welcome calm p.registry op) :
    (∃ n, (applyChannels p peer cur page false).result = .ok n) ∧
      Ready calm (p.after (applyChannels p peer cur page false).effects) := by
  generalize hres : applyBackfill p peer cur page false = r
  obtain ⟨progress, cursor⟩ := r
  obtain ⟨he, hr⟩ := applyBackfill_welcome h hback hadv hwb hres
  obtain ⟨runs, hruns, hmap⟩ := splitRuns_segments peer hsrt (fun s hs op hop => (hwk s hs op hop).version)
    hvis
  generalize hbef :
    progress.effects ++ [.saveRelayCursor peer ⟨cursor.epoch, max cursor.after page.nextRelaySeq⟩] = before
  have hrdy : Ready calm (p.after before) := by
    rw [← hbef, after_append]
    exact hr.save _
  have hrev : ∀ run ∈ runs.reverse, ∀ op ∈ run.ops, Welcome calm (p.after before).registry op := by
    intro run hrun op hop
    rw [after_registry]
    have hmem : run.segment ∈ segs := (mem_filter.1 (hmap ▸ mem_map_of_mem hrun)).1
    exact hwk _ hmem op hop
  obtain ⟨he', hr'⟩ := applyRuns_welcome hrdy hrev
  simp only [applyChannels, applyKeyed, hres, he, hkey, hruns, hbef, he', after_append]
  exact ⟨⟨_, rfl⟩, hr'⟩

/-! ## Ops of the transparent host -/

theorem plainPut_takes (secret : Bytes 32) (hlc : Hlc) : plainHost.store.Takes (plainPut secret hlc) := by
  have hdec : KvOp.decode (KvOp.encode (.put (ascii "k") (ascii "v"))) =
      some (.put (ascii "k") (ascii "v")) := by decide +kernel
  exact fun _ _ _ => ⟨_, kvStore_decode hdec _, rfl⟩

theorem plainPut_known {registry : DeviceRegistry plainHost.crypto} {secret : Bytes 32}
    (hk : registry.keyFor (plainCrypto.deviceIdOfKey secret) = some secret) (hlc : Hlc) :
    Welcome (fun _ => True) registry (plainPut secret hlc) where
  version := rfl
  signed := ⟨secret, hk, sealOp_verify _ secret⟩
  clock := fun _ _ => ⟨(), rfl, trivial⟩
  store := plainPut_takes secret hlc

theorem keyFor_insertKeys {C : Crypto} (hinj : Function.Injective C.deviceIdOfKey) {key : C.Key}
    (keys : List C.Key) (registry : DeviceRegistry C)
    (h : key ∈ keys ∨ registry.keyFor (C.deviceIdOfKey key) = some key) :
    (keys.foldl .insertKey registry).keyFor (C.deviceIdOfKey key) = some key := by
  induction keys generalizing registry with
  | nil => exact h.resolve_left not_mem_nil
  | cons other keys ih =>
    refine ih _ ?_
    rcases h with h | h
    · rcases mem_cons.1 h with rfl | h
      · exact .inr (SortedMap.get?_insert_self _ _ _)
      · exact .inl h
    · right
      rw [DeviceRegistry.keyFor, DeviceRegistry.insertKey, SortedMap.get?_insert]
      split_ifs with hid
      · exact congrArg some (hinj hid).symm
      · exact h

theorem plainCrypto_injective : Function.Injective plainCrypto.deviceIdOfKey :=
  fun a b hab => (plainCrypto_deviceIdOfKey a).symm.trans (hab.trans (plainCrypto_deviceIdOfKey b))

/-- A fresh socket welcomes the puts of the keys it knows. -/
theorem plainPuller_welcome {keys : List (Bytes 32)} {secret : Bytes 32} (h : secret ∈ keys) (hlc : Hlc) :
    Welcome (fun _ => True) (plainPuller keys).registry (plainPut secret hlc) :=
  plainPut_known (keyFor_insertKeys plainCrypto_injective keys .new (.inl h)) hlc

theorem plainPut_welcome (secret : Bytes 32) (hlc : Hlc) :
    Welcome (fun _ => True) (plainPuller [secret]).registry (plainPut secret hlc) :=
  plainPuller_welcome (mem_singleton_self secret) hlc

theorem twoOrigins_arrivals : twoOrigins.arrivals = [plainPut (padTo 32 [7]) 20, plainPut (padTo 32 [5]) 10] := by
  decide +kernel

theorem twoOrigins_welcome : ∀ op ∈ twoOrigins.arrivals,
    Welcome (fun _ => True) (plainPuller [padTo 32 [7], padTo 32 [5]]).registry op := by
  rw [twoOrigins_arrivals, forall_mem_cons, forall_mem_singleton]
  exact ⟨plainPuller_welcome (by simp) 20, plainPuller_welcome (by simp) 10⟩

end ProxyNode
