import ProxyNode.Sanity.SqlOrder
import ProxyNode.Spec.Peers

/-! Compaction by acknowledgment: an op above the horizon goes only when every live peer
trusted in its own right has presented a cursor past it. A peer let in on a vouch is not
asked. -/

namespace ProxyNode

open Wire List Option

namespace PeerDb

def TrustedRow (db : PeerDb) (peer : DeviceId) : Prop :=
  ∃ d ∈ db.devices, d.deviceId = toHex peer ∧ d.trusted = 1

def Live (db : PeerDb) (dormantBefore : String) (peer : DeviceId) : Prop :=
  ∀ d ∈ db.devices, d.deviceId = toHex peer → ¬d.lastSeenAt < dormantBefore

variable (isUpsert : List Byte → Bool) (own : DeviceId) (epoch : Epoch)

/-- Somewhere in the run the gate let a request of the peer pass that carried a cursor at or
above `seq` for the stream `cur`, which was the node's stream then. -/
def Presented (events : List PeerEvent) (peer : DeviceId) (cur : Epoch) (seq : ℕ) : Prop :=
  ∃ before req after, events = before ++ .present peer req :: after ∧
    req.relayEpoch = some cur ∧ seq ≤ req.relayAfter ∧
    (run isUpsert own epoch before).currentStreamEpoch = cur ∧
    ∃ db, (run isUpsert own epoch before).admitPullAck peer req = .ok (db, none)

/-- What the pass deletes above its horizon floor, every live peer admitted has presented. -/
def NotOutrun (events : List PeerEvent) (bounded : BoundedPass) : Prop :=
  let db := run isUpsert own epoch events
  ∀ r ∈ db.log.oplog, r ∉ (db.step isUpsert own (.compact bounded)).log.oplog →
    ∀ a ∈ db.log.arrivals, a.opId = r.opId → (db.bounds own bounded).horizonFloor < a.relaySeq →
      ∀ peer, peer ≠ own → db.isPeerTrusted peer = true → db.Live bounded.dormantBefore peer →
        Presented isUpsert own epoch events peer db.currentStreamEpoch a.relaySeq

/-! ## The floor -/

variable {db : PeerDb} {cur : Epoch}

/-- The least acknowledgment is no more than that of any live peer it was taken over. -/
theorem minAckOf_le {dormantBefore : Option String} {peers : List DeviceRow} {floor m : ℕ}
    (h : db.minAckOf cur dormantBefore peers floor = some m) :
    m ≤ floor ∧ ∀ d ∈ peers, dormant dormantBefore d = false → ∀ peer, fromHex d.deviceId = some peer →
      m = 0 ∨ ∃ acked, db.ackedSeq peer cur = some acked ∧ m ≤ acked := by
  induction peers generalizing floor with
  | nil =>
    rw [minAckOf] at h
    split at h
    · cases h
    · exact ⟨(some.inj h).ge, by simp⟩
  | cons d peers ih =>
    have hzero (hm : some 0 = some m) : m ≤ floor ∧ ∀ d' ∈ d :: peers, dormant dormantBefore d' = false →
        ∀ peer, fromHex d'.deviceId = some peer →
          m = 0 ∨ ∃ acked, db.ackedSeq peer cur = some acked ∧ m ≤ acked := by
      obtain rfl : 0 = m := some.inj hm
      exact ⟨Nat.zero_le _, fun _ _ _ _ _ => Or.inl rfl⟩
    -- a dormant peer is passed over
    have hskip (hdormant : dormant dormantBefore d = true)
        (hrest : db.minAckOf cur dormantBefore peers floor = some m) :
        m ≤ floor ∧ ∀ d' ∈ d :: peers, dormant dormantBefore d' = false →
          ∀ peer, fromHex d'.deviceId = some peer →
            m = 0 ∨ ∃ acked, db.ackedSeq peer cur = some acked ∧ m ≤ acked := by
      obtain ⟨hle, hall⟩ := ih hrest
      refine ⟨hle, fun d' hd' hlive => ?_⟩
      rcases mem_cons.1 hd' with rfl | hd'
      · rw [hdormant] at hlive
        exact Bool.noConfusion hlive
      · exact hall d' hd' hlive
    rw [minAckOf] at h
    cases hhex : fromHex d.deviceId with
    | none =>
      simp only [hhex] at h
      exact hzero h
    | some peer =>
      cases hacked : db.ackedSeq peer cur with
      | none =>
        simp only [hhex, hacked] at h
        split at h
        · rename_i hdormant
          exact hskip hdormant h
        · exact hzero h
      | some acked =>
        simp only [hhex, hacked] at h
        split at h
        · rename_i hdormant
          exact hskip hdormant h
        · split at h
          · exact hzero h
          · obtain ⟨hle, hall⟩ := ih h
            refine ⟨hle.trans (min_le_left _ _), fun d' hd' hlive peer' hpeer' => ?_⟩
            rcases mem_cons.1 hd' with rfl | hd'
            · obtain rfl : peer = peer' := some.inj (hhex.symm.trans hpeer')
              exact .inr ⟨acked, hacked, hle.trans (min_le_right _ _)⟩
            · exact hall d' hd' hlive peer' hpeer'

theorem horizonTurn_nonneg {db : PeerDb} {cutoff : ℤ} (s : HorizonSearch) (h : 0 ≤ s.best) :
    (∃ floor, db.horizonTurn cutoff s = .inl floor ∧ 0 ≤ floor) ∨
      ∃ s', db.horizonTurn cutoff s = .inr s' ∧ 0 ≤ s'.best := by
  unfold horizonTurn
  split
  · right
    dsimp only
    split
    · exact ⟨_, rfl, h⟩
    · split
      · exact ⟨_, rfl, h.trans (le_max_left _ _)⟩
      · exact ⟨_, rfl, h⟩
  · exact .inl ⟨_, rfl, h⟩

theorem horizonRelayFloor_nonneg (db : PeerDb) (cutoff : ℤ) : 0 ≤ db.horizonRelayFloor cutoff := by
  unfold horizonRelayFloor horizonRelayFloorWithin
  dsimp only
  split
  · split
    · exact le_rfl
    · split
      · exact Int.natCast_nonneg _
      · cases hrun : Loop.run (db.horizonTurn cutoff) _ _ with
        | none => exact le_rfl
        | some floor =>
          exact Loop.run_result (fun s => 0 ≤ s.best) (0 ≤ ·) horizonTurn_nonneg (Int.natCast_nonneg _) hrun
  · exact le_rfl

variable {seq : ℕ} {peer : DeviceId}

/-- Between the two floors a live peer with a row of its own has an acknowledgment. -/
theorem acked_of_le_safeFloor {cutoff : ℤ} {dormantBefore : String}
    (hseq : seq ≤ (db.safeRelayFloor own cutoff dormantBefore).safeFloor.toNat)
    (habove : (db.safeRelayFloor own cutoff dormantBefore).horizonFloor < seq)
    (hpeer : peer ≠ own) (htru : db.TrustedRow peer) (hlive : db.Live dormantBefore peer) :
    ∃ acked, db.ackedSeq peer db.currentStreamEpoch = some acked ∧ seq ≤ acked := by
  obtain ⟨d, hd, hid, htrust⟩ := htru
  have hmem : d ∈ db.trustedPeers own := by
    have hne : toHex peer ≠ toHex own := fun h => hpeer (toHex_injective h)
    simp [trustedPeers, hd, hid, htrust, hne]
  have hnonneg := db.horizonRelayFloor_nonneg cutoff
  have hcnt : ¬(db.trustedPeers own).length = 0 := by
    rw [length_eq_zero_iff]
    exact ne_nil_of_mem hmem
  simp only [safeRelayFloor, hcnt, if_false] at hseq habove
  generalize hack : (db.minPeerAck own db.currentStreamEpoch (some dormantBefore)).getD 0 = ack
  rw [hack] at hseq
  have hle : seq ≤ ack := by
    split at hseq <;> omega
  have hpos : 0 < seq := by omega
  have hmin : db.minAckOf db.currentStreamEpoch (some dormantBefore) (db.trustedPeers own) u64Max =
      some ack := by
    rw [minPeerAck] at hack
    split at hack
    · rename_i hnil
      rw [hnil] at hmem
      exact absurd hmem not_mem_nil
    · cases hres : db.minAckOf db.currentStreamEpoch (some dormantBefore) (db.trustedPeers own) u64Max with
      | none =>
        rw [hres, getD_none] at hack
        omega
      | some m =>
        rw [hres, getD_some] at hack
        rw [hack]
  have hnot : dormant (some dormantBefore) d = false := by
    simpa [dormant] using hlive d hd hid
  rcases (minAckOf_le hmin).2 d hmem hnot peer (by rw [hid, fromHex_toHex]) with h0 | ⟨acked, hacked, hm⟩
  · omega
  · exact ⟨acked, hacked, hle.trans hm⟩

/-! ## The log -/

/-- Each op and each arrival is there once, and no arrival without its op. -/
structure Paired (log : OplogDb) : Prop where
  ids : (log.oplog.map (·.opId)).Nodup
  arrivalIds : (log.arrivals.map (·.opId)).Nodup
  arrived : ∀ a ∈ log.arrivals, ∃ r ∈ log.oplog, r.opId = a.opId

variable {log : OplogDb}

theorem Paired.store (h : Paired log) (w : LogWrite) : Paired (log.store w) := by
  rcases OplogDb.store_cases log w with ⟨-, heq⟩ | ⟨hnew, hlog, harr, -⟩
  · rwa [heq]
  have hid : (OplogDb.logRow w.op w.table w.rowPk w.origin).opId = w.op.id := rfl
  refine ⟨?_, ?_, fun a ha => ?_⟩
  · rw [hlog, map_append, map_singleton, hid]
    refine h.ids.append (nodup_singleton _) ?_
    simpa [disjoint_singleton] using hnew
  · rw [harr, map_append, map_singleton]
    refine h.arrivalIds.append (nodup_singleton _) ?_
    rw [disjoint_singleton]
    intro hmem
    obtain ⟨a, ha, haid⟩ := mem_map.1 hmem
    obtain ⟨r, hr, hrid⟩ := h.arrived a ha
    exact hnew r hr (hrid.trans haid)
  · rw [hlog]
    rw [harr, mem_append, mem_singleton] at ha
    rcases ha with ha | rfl
    · obtain ⟨r, hr, hrid⟩ := h.arrived a ha
      exact ⟨r, mem_append_left _ hr, hrid⟩
    · exact ⟨_, mem_append_right _ (mem_singleton_self _), hid⟩

theorem Paired.deleteOpsChunk (h : Paired log) (pins : Pins) (chunk : List (OpId × ℕ)) :
    Paired (log.deleteOpsChunk isUpsert pins chunk) := by
  refine ⟨h.ids.sublist (OplogDb.deleteOpsChunk_oplog_sublist.map _),
    h.arrivalIds.sublist (OplogDb.deleteOpsChunk_arrivals_sublist.map _), fun a ha => ?_⟩
  have ha' := OplogDb.deleteOpsChunk_arrivals_sublist.subset ha
  obtain ⟨r, hr, hid⟩ := h.arrived a ha'
  exact ⟨r, OplogDb.mem_deleteOpsChunk_oplog.2 ⟨hr, (OplogDb.arrival_kept_iff h.ids ha' hr hid).1 ha⟩, hid⟩

/-- A pass keeps the pairing, and what it deletes arrived at or below its floor. -/
theorem Paired.compact (h : Paired log) (pass : CompactionPass) :
    Paired (log.compact isUpsert pass) ∧
      ∀ r ∈ log.oplog, r ∉ (log.compact isUpsert pass).oplog → ∀ a ∈ log.arrivals, a.opId = r.opId →
        a.relaySeq ≤ pass.safeFloor := by
  have hall := OplogDb.compact_induct isUpsert pass
    (fun log' => Paired log' ∧ ∀ r ∈ log.oplog, r ∉ log'.oplog → ∀ a ∈ log.arrivals, a.opId = r.opId →
      a.relaySeq ≤ pass.safeFloor) ⟨h, fun r hr hgone => absurd hr hgone⟩ ?_
  · exact hall
  rintro log' chunk hchk ⟨hlog', hflr⟩
  refine ⟨hlog'.deleteOpsChunk isUpsert pass.pins chunk, fun r hr hgone a ha hid => ?_⟩
  by_cases hr' : r ∈ log'.oplog
  swap
  · exact hflr r hr hr' a ha hid
  have hhit : log'.hit pass.pins chunk r = true := by
    rw [← Bool.not_eq_false]
    exact fun hkept => hgone (OplogDb.mem_deleteOpsChunk_oplog.2 ⟨hr', hkept⟩)
  rw [OplogDb.hit, decide_eq_true_eq] at hhit
  obtain ⟨c, hc, hcid⟩ := mem_map.1 hhit.1
  obtain ⟨a', r', hjoin, hrid, hseq, -⟩ := (hchk c hc).found
  obtain ⟨ha', -, hrid'⟩ := (OplogDb.mem_joined_iff h.ids).1 hjoin
  have haa : a' = a :=
    inj_on_of_nodup_map h.arrivalIds ha' ha (hrid'.symm.trans (hrid.trans (hcid.trans hid.symm)))
  rw [← haa, hseq]
  exact (hchk c hc).floor

/-! ## Runs -/

theorem run_concat (events : List PeerEvent) (event : PeerEvent) :
    run isUpsert own epoch (events ++ [event]) =
      (run isUpsert own epoch events).step isUpsert own event := by
  rw [run, run, foldl_append]
  rfl

variable {isUpsert own epoch}

theorem Presented.later {events : List PeerEvent}
    (h : Presented isUpsert own epoch events peer cur seq) (event : PeerEvent) :
    Presented isUpsert own epoch (events ++ [event]) peer cur seq := by
  obtain ⟨before, req, after, heq, hrest⟩ := h
  refine ⟨before, req, after ++ [event], ?_, hrest⟩
  rw [heq]
  simp

/-- An acknowledgment after `recordPeerAck`: an old one, or the cursor recorded, or an old
one of the peer that was already as high. -/
theorem mem_recordPeerAck {db' : PeerDb} (h : db.recordPeerAck peer cur seq = .ok db') :
    db'.log = db.log ∧ ∀ ack ∈ db'.peerAcks, ack ∈ db.peerAcks ∨
      ack.peerDeviceId = peer ∧ ack.streamEpoch = cur ∧ db.currentStreamEpoch = cur ∧
        (ack.ackedRelaySeq = seq ∨ ⟨peer, cur, ack.ackedRelaySeq⟩ ∈ db.peerAcks) := by
  rw [recordPeerAck] at h
  split_ifs at h with hep hrng hany
  · cases h
    exact ⟨rfl, fun ack hack => Or.inl hack⟩
  · cases h
    refine ⟨rfl, fun ack hack => ?_⟩
    obtain ⟨old, hold, rfl⟩ := mem_map.1 hack
    split
    · rename_i hpeer
      refine .inr ⟨rfl, rfl, not_not.1 hep, ?_⟩
      split
      · rename_i hsame
        rcases max_choice old.ackedRelaySeq seq with hmax | hmax
        · refine .inr ?_
          simp only [hmax]
          rwa [← hpeer, ← hsame]
        · exact .inl hmax
      · exact .inl rfl
    · exact .inl hold
  · cases h
    refine ⟨rfl, fun ack hack => ?_⟩
    rcases mem_append.1 hack with hack | hack
    · exact .inl hack
    · rw [mem_singleton.1 hack]
      exact .inr ⟨rfl, rfl, not_not.1 hep, .inl rfl⟩

theorem admitPullAck_ok {db' : PeerDb} {req : PullRequest} {page : Option PullPage}
    (h : db.admitPullAck peer req = .ok (db', page)) :
    db' = db ∨ page = none ∧ ∃ cur, req.relayEpoch = some cur ∧
      db.recordPeerAck peer cur req.relayAfter = .ok db' := by
  rw [admitPullAck] at h
  cases hep : req.relayEpoch with
  | none =>
    rw [hep] at h
    cases h
  | some cur =>
    simp only [hep] at h
    split_ifs at h with hrst hzero
    · cases h
      exact .inl rfl
    · cases h
      exact .inl rfl
    · cases hrec : db.recordPeerAck peer cur req.relayAfter with
      | error e =>
        rw [hrec] at h
        cases h
      | ok recorded =>
        rw [hrec] at h
        cases h
        exact .inr ⟨rfl, cur, rfl, hrec⟩

/-- Every acknowledgment kept was presented. -/
def Acked (isUpsert : List Byte → Bool) (own : DeviceId) (epoch : Epoch) (events : List PeerEvent) :
    Prop :=
  ∀ ack ∈ (run isUpsert own epoch events).peerAcks,
    Presented isUpsert own epoch events ack.peerDeviceId ack.streamEpoch ack.ackedRelaySeq

theorem Acked.present {events : List PeerEvent} (h : Acked isUpsert own epoch events) (peer : DeviceId)
    (req : PullRequest) : Acked isUpsert own epoch (events ++ [.present peer req]) := by
  intro ack hack
  rw [run_concat, step] at hack
  cases hgate : (run isUpsert own epoch events).admitPullAck peer req with
  | error e =>
    rw [hgate] at hack
    exact (h ack hack).later _
  | ok out =>
    obtain ⟨db', page⟩ := out
    rw [hgate] at hack
    rcases admitPullAck_ok hgate with rfl | ⟨rfl, cur, hcur, hrec⟩
    · exact (h ack hack).later _
    rcases (mem_recordPeerAck hrec).2 ack hack with hold | ⟨hpeer, hep, hstream, hseq | hold⟩
    · exact (h ack hold).later _
    · refine ⟨events, req,
        [], by rw [hpeer], by rw [hep]; exact hcur, hseq.le, by rw [hep]; exact hstream,
        db', by rw [hpeer]; exact hgate⟩
    · have hpresented := (h _ hold).later (.present peer req)
      rwa [hpeer, hep]

theorem run_ok (events : List PeerEvent) :
    Paired (run isUpsert own epoch events).log ∧ Acked isUpsert own epoch events := by
  induction events using reverseRecOn with
  | nil =>
      exact ⟨⟨nodup_nil, nodup_nil, by simp [run, empty, OplogDb.empty]⟩, by simp [Acked, run, empty]⟩
  | append_singleton events event ih =>
    obtain ⟨hpair, hacked⟩ := ih
    -- only the gate writes acknowledgments
    have hlater (hsame : ((run isUpsert own epoch events).step isUpsert own event).peerAcks =
        (run isUpsert own epoch events).peerAcks) : Acked isUpsert own epoch
          (events ++ [event]) := by
      intro ack hack
      rw [run_concat, hsame] at hack
      exact (hacked ack hack).later event
    cases event with
    | append w => exact ⟨by rw [run_concat]; exact hpair.store w, hlater rfl⟩
    | rotate random => exact ⟨by rw [run_concat]; exact ⟨hpair.1, hpair.2, hpair.3⟩, hlater rfl⟩
    | book devices vouches retirements => exact ⟨by rw [run_concat]; exact hpair, hlater rfl⟩
    | compact bounded => exact ⟨by rw [run_concat]; exact (hpair.compact isUpsert _).1, hlater rfl⟩
    | present peer req =>
      refine ⟨?_, hacked.present peer req⟩
      rw [run_concat, step]
      split
      · rename_i db' page hgate
        rcases admitPullAck_ok hgate with rfl | ⟨-, cur, -, hrec⟩
        · exact hpair
        · rw [(mem_recordPeerAck hrec).1]
          exact hpair
      · exact hpair

/-- In every run in which at each pass every peer admitted has a trusting row of its own, no
pass outruns a live peer. -/
theorem acked_compaction_not_outrun (isUpsert : List Byte → Bool) (own : DeviceId) (epoch : Epoch)
    (events : List PeerEvent)
    (hrows : ∀ before bounded after, events = before ++ .compact bounded :: after → ∀ peer, peer ≠ own →
      (run isUpsert own epoch before).isPeerTrusted peer = true →
        (run isUpsert own epoch before).TrustedRow peer) :
    ∀ before bounded after, events = before ++ .compact bounded :: after →
      NotOutrun isUpsert own epoch before bounded := by
  intro before bounded after heq r hr hgone a ha hid habove peer hpeer htru hlive
  obtain ⟨hpair, hacked⟩ : Paired (run isUpsert own epoch before).log ∧
      Acked isUpsert own epoch before := run_ok before
  have hseq := (hpair.compact isUpsert _).2 r hr hgone a ha hid
  obtain ⟨acked, hfind, hle⟩ := acked_of_le_safeFloor own hseq habove hpeer
    (hrows before bounded after heq peer hpeer htru) hlive
  obtain ⟨ack, hack, rfl⟩ := Option.map_eq_some_iff.1 hfind
  have hmatch := List.find?_some hack
  simp only [Bool.and_eq_true, decide_eq_true_eq] at hmatch
  obtain ⟨before', req, after', heq', hep, hcur, hrest⟩ := hacked ack (List.mem_of_find?_eq_some hack)
  rw [hmatch.1, hmatch.2] at *
  exact ⟨before', req, after', heq', hep, hle.trans hcur, hrest⟩

/-! ## A peer let in on a vouch -/

/-- Device 1 is trusted; the vouches are given. Two ops of a drained table arrive, and
device 1 presents the head of the stream. -/
def ackedRun (vouches : List VouchRow) : List PeerEvent :=
  [.book [⟨toHex (fill 32 1), 1, some [2], "2026-01-02"⟩] vouches [],
    .append ⟨plainRowOp 5 1 1, "items", "a", originLocal, 10⟩,
    .append ⟨plainRowOp 5 2 2, "items", "b", originLocal, 10⟩,
    .present (fill 32 1) ⟨pullVersion, .new, some (fill 32 7), 2, none, 100, false, none, 0⟩]

def earlyPass : BoundedPass := ⟨0, "2026-01-01", plainPass⟩

theorem acked_compaction_not_outrun_trusted :
    ((run (fun _ => false) (fill 32 9) (fill 32 7) (ackedRun [] ++ [.compact earlyPass])).log.oplog.map (·.opId)) =
        [fill 32 2] ∧
      NotOutrun (fun _ => false) (fill 32 9) (fill 32 7) (ackedRun []) earlyPass := by
  refine ⟨by decide +kernel, ?_⟩
  refine acked_compaction_not_outrun (fun _ => false) (fill 32 9) (fill 32 7) (ackedRun [] ++ [.compact earlyPass])
    (fun before bounded after heq peer _ htru => ?_) (ackedRun []) earlyPass [] rfl
  obtain rfl : before = ackedRun [] := by
    rcases before with _ | ⟨_, _ | ⟨_, _ | ⟨_, _ | ⟨_, _ | ⟨_, before⟩⟩⟩⟩⟩ <;> simp_all [ackedRun]
  have hdevs : (run (fun _ => false) (fill 32 9) (fill 32 7) (ackedRun [])).devices =
      [⟨toHex (fill 32 1), 1, some [2], "2026-01-02"⟩] := by decide +kernel
  have hvouches : (run (fun _ => false) (fill 32 9) (fill 32 7) (ackedRun [])).deviceVouches = [] := by
    decide +kernel
  have hid : toHex (fill 32 1) = toHex peer := by
    simp only [isPeerTrusted, hdevs, hvouches, List.any_nil] at htru
    split_ifs at htru with hretired hany
    simpa using hany
  exact ⟨_, by rw [hdevs]; exact List.mem_singleton_self _, hid, rfl⟩

def vouchedRun : List PeerEvent := ackedRun [⟨toHex (fill 32 3), toHex (fill 32 1)⟩]

/-- Device 3, vouched for by device 1, may pull, and the pass deletes an op it has not seen. -/
theorem vouched_peer_outrun : ¬NotOutrun (fun _ => false) (fill 32 9) (fill 32 7) vouchedRun earlyPass := by
  intro h
  have hhead : (run (fun _ => false) (fill 32 9) (fill 32 7) vouchedRun).log.oplog.head? =
      some (OplogDb.logRow (plainRowOp 5 1 1) "items" "a" originLocal) := rfl
  have hpresented := h _ (List.mem_of_head? hhead) ?_ ⟨1, fill 32 1, 10⟩ (by decide +kernel) (by decide +kernel)
    (by decide +kernel) (fill 32 3) (by decide +kernel) (by decide +kernel) ?_
  · obtain ⟨before, req, after, heq, -⟩ := hpresented
    have hmem : PeerEvent.present (fill 32 3) req ∈ vouchedRun := by
      rw [heq]
      simp
    simp only [vouchedRun, ackedRun, List.mem_cons, List.not_mem_nil, reduceCtorEq, PeerEvent.present.injEq,
      false_or, or_false] at hmem
    exact absurd hmem.1 (by decide)
  · intro hmem
    have hids := List.mem_map_of_mem (f := OplogRow.opId) hmem
    revert hids
    decide +kernel
  · have hdevs : (run (fun _ => false) (fill 32 9) (fill 32 7) vouchedRun).devices =
        [⟨toHex (fill 32 1), 1, some [2], "2026-01-02"⟩] := by decide +kernel
    intro d hd _
    rw [hdevs, List.mem_singleton] at hd
    rw [hd]
    decide +kernel

end PeerDb

end ProxyNode
