import ProxyNode.Sanity.RelayPage
import ProxyNode.Spec.Kv
import ProxyNode.Spec.RelayRoutes

/-! What a relay route sends is what the caller takes, whichever ops come into the log while
the route reads it. A log's floor is zero and its head only rises, so a cursor that the first
read accepts is accepted by every later one. -/

namespace ProxyNode

open Wire List

/-! ## The body -/

theorem SignedOp.toBytes_length_lt (op : SignedOp) : op.toBytes.length < 2 ^ 64 := by
  have hhlc : (varint op.body.hlc.val).length ≤ 10 := length_varintIn_le 10 _
  have hsto : (blob op.body.store.1).length ≤ 10 + 64 :=
    le_trans (length_blob_le _) (Nat.add_le_add_left op.body.store.2.2.1 10)
  have hpay := length_blob_le op.body.payload.1
  have hpay' := op.body.payload.2
  have hsig := length_blob_le op.sig.1
  have hid := length_blob_le op.id.1
  rw [op.sig.2] at hsig
  rw [op.id.2] at hid
  simp only [toBytes, canonicalBody, length_append, length_cons, op.body.device.2]
  omega

theorem takeRelayWireEntry_toBytes {entry : RelayWireEntry} (hseq : entry.seq < 2 ^ 64)
    (henv : entry.envelope.length < 2 ^ 64) (r : List Byte) :
    takeRelayWireEntry (entry.toBytes ++ r) = some (entry, r) := by
  simp only [takeRelayWireEntry, RelayWireEntry.toBytes, append_assoc, takeVarint64_varint hseq,
    takeBlob_blob henv, Option.bind_eq_bind, Option.bind_some, Option.pure_def]

namespace RelayResponse

structure Fits (response : RelayResponse) : Prop where
  v : response.v < 256
  head : response.head < 2 ^ 64
  floor : response.floor < 2 ^ 64
  next : response.next < 2 ^ 64
  count : response.entries.length < 2 ^ 64
  entries : ∀ entry ∈ response.entries, entry.seq < 2 ^ 64 ∧ entry.envelope.length < 2 ^ 64

theorem fromBytes_toBytes {response : RelayResponse} (h : response.Fits) :
    fromBytes response.toBytes = some response := by
  have hep : ∀ r, takeBytes 32 (response.epoch.1 ++ r) = some (response.epoch.1, r) := fun r =>
    takeBytes_eq_some.2 ⟨rfl, response.epoch.2⟩
  have hents : takeMany takeRelayWireEntry response.entries.length
      (response.entries.flatMap RelayWireEntry.toBytes) = some (response.entries, []) := by
    have hread : ∀ entry ∈ response.entries, ∀ r, takeRelayWireEntry (entry.toBytes ++ r) = some (entry, r) :=
      fun entry he => takeRelayWireEntry_toBytes (h.entries entry he).1 (h.entries entry he).2
    simpa only [append_nil] using takeMany_flatMap hread []
  simp only [fromBytes, toBytes, head?_cons, tail_cons, Option.map_some, Option.bind_eq_bind,
    Option.bind_some, hep, takeVarint64_varint h.head, takeVarint64_varint h.floor,
    takeVarint64_varint h.next, takeBool_bool, takeVarint64_varint h.count, hents,
    dif_pos response.epoch.2, byte_val_of_lt h.v]

end RelayResponse

theorem relayResponse_fits {state : RelayStreamState} {reset : Bool} {next : ℕ} {entries : List RelayLogEntry}
    (hval : validRelayState state = true) (hhead : state.head < 2 ^ 64) (hnext : next ≤ state.head)
    (hcnt : entries.length ≤ defaultPullLimit) (hseq : ∀ entry ∈ entries, entry.seq ≤ state.head) :
    (relayResponse state reset next entries).Fits where
  v := by simp [relayResponse, relayProtocolVersion]
  head := hhead
  floor := by
    have hbds := validRelayState_bounds hval
    simp only [relayResponse]
    omega
  next := lt_of_le_of_lt hnext hhead
  count := by
    rw [relayResponse, length_map]
    exact lt_of_le_of_lt hcnt (by decide)
  entries := by
    intro entry hent
    obtain ⟨e, he, rfl⟩ := mem_map.1 hent
    exact ⟨lt_of_le_of_lt (hseq e he) hhead, e.op.toBytes_length_lt⟩

theorem receiveRelay_toBytes {response : RelayResponse} (h : response.Fits) (cursor : RelayCursor)
    (maxEntries : ℕ) (statusOnly : Bool) :
    receiveRelay response.toBytes cursor maxEntries statusOnly =
      some (decodeRelayResponse response cursor maxEntries statusOnly) := by
  rw [receiveRelay, RelayResponse.fromBytes_toBytes h]
  rfl

/-! ## The stream of a log -/

namespace OpLog

theorem validRelayState_relayState (log : OpLog) : validRelayState log.relayState = true := by
  simp [validRelayState, relayState, log.epoch_ne]

theorem relayNeedsReset_iff (log : OpLog) (epoch : Epoch) (after : ℕ) :
    relayNeedsReset epoch after log.relayState = true ↔
      epoch ≠ zeroEpoch ∧ (epoch = log.relayEpoch → log.arrivals.length < after) := by
  have hne := log.epoch_ne
  rw [length_arrivals]
  rw [relayNeedsReset, decide_eq_true_iff]
  simp only [relayState]
  constructor
  · rintro (⟨-, h⟩ | ⟨h, h'⟩ | ⟨h, h'⟩)
    · omega
    · exact ⟨h, fun he => absurd he h'⟩
    · exact ⟨fun hz => hne (h ▸ hz), fun _ => by omega⟩
  · rintro ⟨hz, h⟩
    by_cases he : epoch = log.relayEpoch
    · exact .inr (.inr ⟨he, .inr (h he)⟩)
    · exact .inr (.inl ⟨hz, he⟩)

variable {log : OpLog} {after : ℕ}

theorem accepts_takeIn {epoch : Epoch} (h : relayNeedsReset epoch after log.relayState = false)
    (ops : List SignedOp) :
    relayNeedsReset epoch after (log.takeIn ops).relayState = false := by
  have hext := log.extends_takeIn ops
  have hlen := hext.arrivals.length_le
  rw [← Bool.not_eq_true, relayNeedsReset_iff] at h ⊢
  rintro ⟨hz, haft⟩
  refine h ⟨hz, fun he => ?_⟩
  have := haft (he.trans hext.epoch.symm)
  omega

def Continues (log : OpLog) (page : RelayPage) : Prop :=
  ∀ ops, relayNeedsReset page.cursor.epoch page.cursor.after (log.takeIn ops).relayState = false

theorem continues_reset (log : OpLog) (entries : List RelayOp) :
    log.Continues ⟨log.relayState.epoch, log.relayState.head, log.relayState.floor, log.relayState.floor, true,
      entries⟩ := by
  apply accepts_takeIn
  rw [← Bool.not_eq_true, relayNeedsReset_iff]
  rintro ⟨-, h⟩
  exact absurd (h rfl) (Nat.not_lt_zero _)

/-! ## A page -/

/-- The page holds the ops with the sequences behind `after`, as many as `limit` and the head
allow, and leaves its caller at the last of them. -/
structure Carries (log : OpLog) (after limit : ℕ) (page : RelayPage) : Prop where
  bounds : (⟨page.epoch, page.head, page.floor⟩ : RelayStreamState) = log.relayState
  seqs : page.entries.map RelayOp.seq =
    List.range' (after + 1) (min (after + limit) log.relayState.head - after)
  ops : ∀ entry ∈ page.entries, log.arrivals[entry.seq - 1]? = some entry.op
  bytes : page.entries.map (fun entry => entry.op.toBytes) =
    ((log.arrivals.drop after).take limit).map SignedOp.toBytes
  next : page.next = min (after + limit) log.relayState.head

theorem relayPage_seqs (haft : after ≤ log.relayState.head) (limit : ℕ) :
    (log.relayPage after limit).entries.map RelayLogEntry.seq =
      range' (after + 1) (min (after + limit) log.relayState.head - after) := by
  have hlen : ((log.arrivals.drop after).take limit).length = min (after + limit) log.relayState.head - after := by
    rw [length_take, length_drop, relayState_head]
    rw [relayState_head] at haft
    omega
  rw [relayPage_entries, map_map, ← hlen]
  have hsnd : RelayLogEntry.seq ∘ (fun e : SignedOp × ℕ => (⟨e.2 + 1, e.1⟩ : RelayLogEntry)) =
      (· + 1) ∘ Prod.snd := rfl
  rw [hsnd, ← map_map, zipIdx_map_snd, range'_succ_left]

theorem relayPage_length (haft : after ≤ log.relayState.head) (limit : ℕ) :
    (log.relayPage after limit).entries.length ≤ limit := by
  have hlen := congrArg length (relayPage_seqs haft limit)
  rw [length_map, length_range'] at hlen
  omega

variable {limit : ℕ}

theorem relayPage_bounds (haft : after ≤ log.relayState.head) :
    ∀ entry ∈ (log.relayPage after limit).entries, after ≤ entry.seq ∧ entry.seq ≤ log.relayState.head := by
  intro entry hent
  have hmem := mem_map_of_mem (f := RelayLogEntry.seq) hent
  rw [relayPage_seqs haft, mem_range'_1] at hmem
  omega

theorem relayPage_contiguous (haft : after ≤ log.relayState.head) (limit : ℕ) :
    contiguous log.relayState.head after ((log.relayPage after limit).entries.map RelayLogEntry.seq) = true := by
  generalize hm : min (after + limit) log.relayState.head - after = m
  have hrng := contiguous_range' m m (show after + m ≤ log.relayState.head by omega)
  rwa [take_of_length_le (by simp), ← hm, ← relayPage_seqs haft] at hrng

theorem relayPage_ops (log : OpLog) (after limit : ℕ) :
    ∀ entry ∈ (log.relayPage after limit).entries, log.arrivals[entry.seq - 1]? = some entry.op := by
  intro entry hent
  rw [relayPage_entries] at hent
  obtain ⟨⟨op, i⟩, he, rfl⟩ := mem_map.1 hent
  obtain ⟨hi, hop⟩ := mem_zipIdx_iff_le_and_getElem?_sub.1 he
  rw [getElem?_take] at hop
  split_ifs at hop with hlt
  rw [getElem?_drop] at hop
  rwa [Nat.add_sub_cancel, show i = after + (i - after) by omega]

theorem relayPage_next (haft : after ≤ log.relayState.head) (limit : ℕ) :
    ((log.relayPage after limit).entries.getLast?.map RelayLogEntry.seq).getD after =
      min (after + limit) log.relayState.head := by
  rw [← getLast?_map, relayPage_seqs haft]
  generalize hm : min (after + limit) log.relayState.head - after = m
  cases m with
  | zero =>
    simp only [range'_zero, getLast?_nil, Option.getD_none]
    omega
  | succ m =>
    rw [getLast?_range']
    simp
    omega

/-! ## The routes -/

def Accepted (answer : Except RelayStatus (List Byte)) (cursor : RelayCursor) (maxEntries : ℕ)
    (statusOnly : Bool) (page : RelayPage) : Prop :=
  ∃ body, answer = .ok body ∧ receiveRelay body cursor maxEntries statusOnly = some (.ok page)

theorem accepted_of_decodes {answer : Except RelayStatus RelayResponse} {response : RelayResponse}
    {cursor : RelayCursor} {maxEntries : ℕ} {statusOnly : Bool} {page : RelayPage}
    (hans : answer = .ok response) (hfits : response.Fits)
    (hdec : decodeRelayResponse response cursor maxEntries statusOnly = .ok page) :
    Accepted (answer.map RelayResponse.toBytes) cursor maxEntries statusOnly page := by
  refine ⟨response.toBytes, by rw [hans]; rfl, ?_⟩
  rw [receiveRelay_toBytes hfits, hdec]

variable {log : OpLog} {cursor : RelayCursor}

section Accepts

variable (hcur : cursor.epoch = zeroEpoch → cursor.after = 0)

/-- The reset that every route answers with. -/
theorem reset_accepted (answer : Except RelayStatus RelayResponse) (hsize : log.arrivals.length < 2 ^ 64)
    (hrst : relayNeedsReset cursor.epoch cursor.after log.relayState = true)
    (hans : answer = .ok (relayResponse log.relayState true log.relayState.floor [])) (maxEntries : ℕ)
    (statusOnly : Bool) :
    ∃ page, Accepted (answer.map RelayResponse.toBytes) cursor maxEntries statusOnly page ∧ page.reset = true ∧
      log.Continues page := by
  have hval := log.validRelayState_relayState
  have hhead : log.relayState.head < 2 ^ 64 := by rwa [relayState_head]
  have hfits : (relayResponse log.relayState true log.relayState.floor []).Fits :=
    relayResponse_fits hval hhead (Nat.zero_le _) (Nat.zero_le _) nofun
  exact ⟨_, accepted_of_decodes hans hfits (decode_reset hval hrst maxEntries statusOnly), rfl,
    log.continues_reset []⟩

include hcur

theorem status_accepted (hsize : log.arrivals.length < 2 ^ 64) :
    ∃ page, Accepted ((relayStatus log.relayState cursor.epoch cursor.after).map RelayResponse.toBytes) cursor 0
        true page ∧
      page.reset = relayNeedsReset cursor.epoch cursor.after log.relayState ∧
      (page.reset = true → log.Continues page) ∧ (page.reset = false → page.next = cursor.after) := by
  have hval := log.validRelayState_relayState
  cases hrst : relayNeedsReset cursor.epoch cursor.after log.relayState with
  | true =>
    obtain ⟨page, hpage, hr, hcont⟩ := reset_accepted (relayStatus log.relayState cursor.epoch cursor.after)
      hsize hrst (by simp [relayStatus, hval, hrst]) 0 true
    exact ⟨page, hpage, hr, fun _ => hcont, fun h => absurd (hr.symm.trans h) (by decide)⟩
  | false =>
    have hfits : (relayResponse log.relayState false cursor.after []).Fits :=
      relayResponse_fits hval (by rwa [relayState_head]) (accepted_bounds hcur hrst).2 (Nat.zero_le _) nofun
    refine ⟨_, accepted_of_decodes ?_ hfits (decode_status hval hrst 0), rfl, nofun, fun _ => rfl⟩
    simp [relayStatus, hval, hrst]

/-- The page is read from a later log than the state before it. -/
theorem page_accepted {later : OpLog} (hlim : 0 < limit ∧ limit ≤ defaultPullLimit)
    (hsize : later.arrivals.length < 2 ^ 64) (hv : ∀ op ∈ later.arrivals, op.body.v = envelopeVersion)
    (hrst : relayNeedsReset cursor.epoch cursor.after log.relayState = false)
    (hrst' : relayNeedsReset cursor.epoch cursor.after later.relayState = false) :
    ∃ page, Accepted ((getRelayOps log.relayState (later.relayPage cursor.after limit) cursor.epoch cursor.after
        limit).map RelayResponse.toBytes) cursor limit false page ∧
      page.reset = false ∧ later.Carries cursor.after limit page := by
  have hval' := later.validRelayState_relayState
  obtain ⟨hflr, haft⟩ := accepted_bounds hcur hrst'
  have hcnt := relayPage_length haft limit
  have hcont := relayPage_contiguous haft limit
  have hnext := relayPage_next haft limit
  have hget := getRelayOps_accepted hlim.1 hlim.2 log.validRelayState_relayState hrst hval' hrst'
    hcnt hcont
  have hfits : (relayResponse later.relayState false
      (((later.relayPage cursor.after limit).entries.getLast?.map RelayLogEntry.seq).getD cursor.after)
      (later.relayPage cursor.after limit).entries).Fits := by
    apply relayResponse_fits hval'
    · rwa [relayState_head]
    · rw [hnext]
      exact min_le_right _ _
    · exact le_trans hcnt hlim.2
    · exact fun entry he => (relayPage_bounds haft entry he).2
  have hops := later.relayPage_ops cursor.after limit
  have hvers : ∀ entry ∈ (later.relayPage cursor.after limit).entries, entry.op.body.v = envelopeVersion :=
    fun entry he => hv _ (mem_of_getElem? (hops entry he))
  refine ⟨_, accepted_of_decodes hget hfits
    (decode_page hval' hrst' hflr haft hcnt hcont (relayPage_bounds haft) hvers), rfl, rfl, ?_, ?_,
    ?_, hnext⟩
  · rw [map_map]
    exact relayPage_seqs haft limit
  · intro entry hent
    obtain ⟨e, he, rfl⟩ := mem_map.1 hent
    exact hops e he
  · rw [relayPage_entries, map_map, map_map]
    conv_rhs => rw [← zipIdx_map_fst cursor.after ((later.arrivals.drop cursor.after).take limit)]
    rw [map_map]
    rfl

theorem ops_accepted (hlim : 0 < limit ∧ limit ≤ defaultPullLimit) {between : List SignedOp}
    (hsize : log.arrivals.length + between.length < 2 ^ 64)
    (hv : ∀ op ∈ log.arrivals ++ between, op.body.v = envelopeVersion) :
    ∃ page, Accepted (log.serveOps between cursor limit) cursor limit false page ∧
      page.reset = relayNeedsReset cursor.epoch cursor.after log.relayState ∧
      (page.reset = true → log.Continues page) ∧
      (page.reset = false → (log.takeIn between).Carries cursor.after limit page) := by
  have hval := log.validRelayState_relayState
  cases hrst : relayNeedsReset cursor.epoch cursor.after log.relayState with
  | true =>
    have hbad : ¬(limit = 0 ∨ limit > defaultPullLimit) := by omega
    obtain ⟨page, hpage, hr, hcont⟩ := reset_accepted (getRelayOps log.relayState
      ((log.takeIn between).relayPage cursor.after limit) cursor.epoch cursor.after limit) (by omega) hrst
      (by rw [getRelayOps, if_neg hbad]; simp [hval, hrst]) limit false
    exact ⟨page, hpage, hr, fun _ => hcont, fun h => absurd (hr.symm.trans h) (by decide)⟩
  | false =>
    have hlen := log.length_takeIn_le between
    have hv' : ∀ op ∈ (log.takeIn between).arrivals, op.body.v = envelopeVersion := fun op hop =>
      hv op (mem_append.2 (mem_takeIn hop))
    obtain ⟨page, hpage, hr, hcarries⟩ := page_accepted hcur hlim (lt_of_le_of_lt hlen hsize) hv' hrst
      (accepts_takeIn hrst between)
    exact ⟨page, hpage, hr, fun h => absurd (hr.symm.trans h) (by decide), fun _ => hcarries⟩

end Accepts

/-- A wait comes back with the state of a log it looked at. -/
theorem untilRelayChangesFrom_reads (epoch : Epoch) (after : ℕ) (late : List SignedOp)
    (passes : List WatchPass) (log : OpLog) :
    ∃ ops, untilRelayChangesFrom epoch after late log passes = (log.takeIn ops).relayState ∧
      ops <+: passes.flatMap WatchPass.arrived ++ late := by
  induction passes generalizing log with
  | nil => exact ⟨late, rfl, prefix_refl _⟩
  | cons pass passes ih =>
    rw [untilRelayChangesFrom, flatMap_cons, append_assoc]
    split_ifs with h
    · exact ⟨pass.arrived, rfl, prefix_append _ _⟩
    · obtain ⟨ops, hops, hpre⟩ := ih (log.takeIn pass.arrived)
      refine ⟨pass.arrived ++ ops, by rw [hops, takeIn_append], ?_⟩
      exact (prefix_append_right_inj _).2 hpre

theorem watch_accepted (hcur : cursor.epoch = zeroEpoch → cursor.after = 0) {wait : Option WatchWait}
    (hsize : ∀ w ∈ wait, log.arrivals.length + w.arrived.length < 2 ^ 64) (hsize' : log.arrivals.length < 2 ^ 64) :
    ∃ page, Accepted (log.serveWatch wait cursor) cursor 0 true page ∧
      page.reset = relayNeedsReset cursor.epoch cursor.after log.relayState ∧
      (page.reset = true → log.Continues page) ∧ (page.reset = false → page.next = cursor.after) := by
  have hval := log.validRelayState_relayState
  generalize hwaited : wait.map (log.untilRelayChanges cursor.epoch cursor.after) = waited
  by_cases hnow : relayNeedsReset cursor.epoch cursor.after log.relayState = true ∨ cursor.epoch = zeroEpoch ∨
      log.relayState.head > cursor.after ∨ log.relayState.head < cursor.after
  · have hserve : log.serveWatch wait cursor =
        (relayStatus log.relayState cursor.epoch cursor.after).map RelayResponse.toBytes := by
      rw [serveWatch, getRelayWatch, if_neg (not_not.2 hval)]
      simp only [if_pos hnow]
    rw [hserve]
    exact status_accepted hcur hsize'
  · have hrst : relayNeedsReset cursor.epoch cursor.after log.relayState = false := by
      rw [← Bool.not_eq_true]
      exact fun h => hnow (.inl h)
    have hserve : log.serveWatch wait cursor =
        (relayStatus (waited.getD log.relayState) cursor.epoch cursor.after).map RelayResponse.toBytes := by
      rw [serveWatch, getRelayWatch, if_neg (not_not.2 hval), hwaited]
      simp only [if_neg hnow]
    cases wait with
    | none =>
      rw [hserve, ← hwaited]
      exact status_accepted hcur hsize'
    | some wait =>
      obtain ⟨ops, hops, hpre⟩ :=
        untilRelayChangesFrom_reads cursor.epoch cursor.after wait.late wait.passes log
      have hstate : waited.getD log.relayState = (log.takeIn ops).relayState := by
        rw [← hwaited]
        exact hops
      have hlen : (log.takeIn ops).arrivals.length < 2 ^ 64 := by
        have := log.length_takeIn_le ops
        have := hpre.length_le
        have := hsize wait rfl
        rw [WatchWait.arrived] at this
        omega
      obtain ⟨page, hpage, hr, -, hkps⟩ := status_accepted hcur hlen
      rw [accepts_takeIn hrst ops] at hr
      rw [hserve, hstate]
      exact ⟨page, hpage, hr.trans hrst.symm, fun h => absurd (hr.symm.trans h) (by decide), hkps⟩

end OpLog

/-- The three routes and their caller agree. Every op is of the current version, the counts are
in the range of their `u64` and the cursor is one a request may carry; ops come into the log
between the reads of the ops route and during a wait. -/
theorem relay_routes_agree (log : OpLog) (cursor : RelayCursor)
    (hcur : cursor = .start ∨ cursor.epoch ≠ zeroEpoch) (limit : ℕ)
    (hlim : 0 < limit ∧ limit ≤ defaultPullLimit) (between : List SignedOp) (wait : Option WatchWait)
    (hv : ∀ op ∈ log.arrivals ++ between, op.body.v = envelopeVersion)
    (hbetween : log.arrivals.length + between.length < 2 ^ 64)
    (hwait : ∀ w ∈ wait, log.arrivals.length + w.arrived.length < 2 ^ 64) :
    (∃ page, OpLog.Accepted (log.serveOps between cursor limit) cursor limit false page ∧
      page.reset = relayNeedsReset cursor.epoch cursor.after log.relayState ∧
      (page.reset = true → log.Continues page) ∧
      (page.reset = false → (log.takeIn between).Carries cursor.after limit page)) ∧
    (∃ page, OpLog.Accepted (log.serveHead cursor) cursor 0 true page ∧
      page.reset = relayNeedsReset cursor.epoch cursor.after log.relayState ∧
      (page.reset = true → log.Continues page) ∧ (page.reset = false → page.next = cursor.after)) ∧
    ∃ page, OpLog.Accepted (log.serveWatch wait cursor) cursor 0 true page ∧
      page.reset = relayNeedsReset cursor.epoch cursor.after log.relayState ∧
      (page.reset = true → log.Continues page) ∧ (page.reset = false → page.next = cursor.after) := by
  have hzero : cursor.epoch = zeroEpoch → cursor.after = 0 := by
    rintro hz
    rcases hcur with rfl | hne
    · rfl
    · exact absurd hz hne
  have hsize : log.arrivals.length < 2 ^ 64 := by omega
  exact ⟨OpLog.ops_accepted hzero hlim hbetween hv, OpLog.status_accepted hzero hsize,
    OpLog.watch_accepted hzero hwait hsize⟩

namespace RoutesAgree

def author : Bytes 32 := padTo 32 [7]

def parked : WatchWait := ⟨[⟨[], false⟩, ⟨[plainPut author 30], false⟩], []⟩

/-- A caller at the head of a log of one op. -/
theorem relay_routes_agree_at_head :
    (∀ op ∈ (plainLog [plainPut author 20]).arrivals ++ [plainPut author 30], op.body.v = envelopeVersion) ∧
    ∃ page, OpLog.Accepted ((plainLog [plainPut author 20]).serveOps [plainPut author 30] ⟨fill 32 9, 1⟩ 4)
        ⟨fill 32 9, 1⟩ 4 false page ∧
      (page.reset = false →
        ((plainLog [plainPut author 20]).takeIn [plainPut author 30]).Carries 1 4 page) := by
  have hlog : (plainLog [plainPut author 20]).arrivals = [plainPut author 20] := by
    rfl
  have hv : ∀ op ∈ (plainLog [plainPut author 20]).arrivals ++ [plainPut author 30],
      op.body.v = envelopeVersion := by
    rw [hlog]
    decide
  have hsize : (plainLog [plainPut author 20]).arrivals.length + [plainPut author 30].length < 2 ^ 64 := by
    rw [hlog]
    decide
  have hwait : ∀ w ∈ some parked,
      (plainLog [plainPut author 20]).arrivals.length + w.arrived.length < 2 ^ 64 := by
    rw [hlog]
    rintro w ⟨⟩
    decide
  obtain ⟨⟨page, haccepted, -, -, hcarries⟩, -, -⟩ := relay_routes_agree (plainLog [plainPut author 20])
    ⟨fill 32 9, 1⟩ (Or.inr (by decide)) 4 (by decide) [plainPut author 30] (some parked) hv hsize hwait
  exact ⟨hv, page, haccepted, hcarries⟩

end RoutesAgree

end ProxyNode
