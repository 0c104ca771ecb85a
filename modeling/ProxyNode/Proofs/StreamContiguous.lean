import ProxyNode.Sanity.RelayPage
import ProxyNode.Sanity.Stream

/-! Above its floor the arrival stream in SQLite has no gap, as long as the floor is not
lowered over a compacted stream and no op above it is pruned behind its arrival; a page for
a cursor that needs no reset then passes the checks of both sides. -/

namespace ProxyNode

open List

namespace OplogDb

/-- The logged arrivals above the floor are all the numbers up to the head. -/
def StreamContiguous (db : OplogDb) : Prop :=
  db.compactedThroughSeq ≤ db.headSeq ∧
    ((db.joined.map (·.1.relaySeq)).filter fun n => db.compactedThroughSeq < n ∧ n ≤ db.headSeq).orderBy id =
      List.range' (db.compactedThroughSeq + 1) (db.headSeq - db.compactedThroughSeq)

instance (db : OplogDb) : Decidable db.StreamContiguous := inferInstanceAs (Decidable (_ ∧ _))

def ServesAccepted (db : OplogDb) : Prop :=
  ∀ requestEpoch after limit, 0 < limit → limit ≤ defaultPullLimit → (requestEpoch = zeroEpoch → after = 0) →
    relayNeedsReset requestEpoch after db.relayStreamState = false →
    ∀ page, db.relayPageConn after limit = .ok page →
      contiguous page.state.head after (page.entries.map RelayLogEntry.seq) = true ∧
        (db.streamEpoch ≠ zeroEpoch →
          ∃ wire taken, getRelayOps db.relayStreamState page requestEpoch after limit = .ok wire ∧
            wire.reset = false ∧
            decodeRelayResponse wire ⟨requestEpoch, after⟩ limit false = .ok taken ∧
            taken.entries = page.entries.map fun entry => ⟨entry.seq, entry.op⟩)

/-- Whether an event keeps holes and floor in step: a new op has no arrival left from
before, a prune stays at or below the floor, and an epoch is left only at floor zero. -/
def Keeps (db : OplogDb) : SqlEvent → Prop
  | .log (.append w) => (∃ r ∈ db.oplog, r.opId = w.op.id) ∨ ∀ a ∈ db.arrivals, a.opId ≠ w.op.id
  | .deleteRowBelow row c keep => ∀ r ∈ db.oplog, belowRow row c keep r = true →
      ∀ a ∈ db.arrivals, a.opId = r.opId → a.relaySeq ≤ db.compactedThroughSeq
  | .rotate _ => db.compactedThroughSeq = 0
  | _ => True

instance (db : OplogDb) : DecidablePred db.Keeps
  | .log (.append _) => inferInstanceAs (Decidable (_ ∨ _))
  | .log (.compact _) => inferInstanceAs (Decidable True)
  | .deleteRowBelow row c keep =>
    inferInstanceAs (Decidable (∀ r ∈ db.oplog, belowRow row c keep r = true →
      ∀ a ∈ db.arrivals, a.opId = r.opId → a.relaySeq ≤ db.compactedThroughSeq))
  | .rotate _ => inferInstanceAs (Decidable (db.compactedThroughSeq = 0))
  | .defer _ => inferInstanceAs (Decidable True)
  | .restore _ _ _ => inferInstanceAs (Decidable True)
  | .move _ _ _ => inferInstanceAs (Decidable True)

def KeepsAll (isUpsert : List Byte → Bool) : List SqlEvent → OplogDb → Prop
  | [], _ => True
  | event :: events, db => db.Keeps event ∧ KeepsAll isUpsert events (db.sqlStep isUpsert event)

variable {db : OplogDb}

theorem StreamOk.step (h : db.StreamOk) (isUpsert : List Byte → Bool) {event : SqlEvent}
    (hkps : db.Keeps event) :
    (db.sqlStep isUpsert event).StreamOk := by
  cases event with
  | log event =>
    cases event with
    | append w => exact h.append hkps w.table w.rowPk w.origin w.now
    | compact pass => exact h.compact isUpsert pass
  | deleteRowBelow row c keep => exact h.deleteRowBelow hkps
  | rotate random => exact h.rotate hkps random
  | defer id => exact h.defer id
  | restore id table rowPk => exact h.restore id table rowPk
  | move source target ids => exact h.move source target ids

theorem StreamOk.run (h : db.StreamOk) (isUpsert : List Byte → Bool) {events : List SqlEvent}
    (hkps : KeepsAll isUpsert events db) : (db.sqlRun isUpsert events).StreamOk := by
  induction events generalizing db with
  | nil => exact h
  | cons event events ih => exact ih (h.step isUpsert hkps.1) hkps.2

/-! ## The numbers of the stream -/

theorem StreamOk.joined_nodup (h : db.StreamOk) : (db.joined.map (·.1.relaySeq)).Nodup :=
  pairwise_map.2 (h.joined_ascending.imp fun hlt => hlt.ne)

theorem StreamOk.mem_joined_seqs (h : db.StreamOk) {n : ℕ} :
    n ∈ db.joined.map (·.1.relaySeq) ↔ ∃ a ∈ db.arrivals, a.relaySeq = n ∧ ∃ r ∈ db.oplog, r.opId = a.opId := by
  simp only [mem_map, Prod.exists, mem_joined_iff h.ids]
  constructor
  · rintro ⟨a, r, ⟨ha, hr, hid⟩, hn⟩
    exact ⟨a, ha, hn, r, hr, hid⟩
  · rintro ⟨a, ha, hn, r, hr, hid⟩
    exact ⟨a, r, ⟨ha, hr, hid⟩, hn⟩

/-- From the floor on, what is logged behind a position is every number up to the last. -/
theorem StreamOk.behind (h : db.StreamOk) {after : ℕ} (hflr : db.compactedThroughSeq ≤ after) :
    ((db.joined.map (·.1.relaySeq)).filter (after < ·)).orderBy id =
      range' (after + 1) (db.lastSeq - after) := by
  refine orderBy_eq ?_ (pairwise_lt_range')
  refine (perm_ext_iff_of_nodup nodup_range' (h.joined_nodup.filter _)).2 fun n => ?_
  rw [mem_range'_1, mem_filter, h.mem_joined_seqs, decide_eq_true_eq]
  constructor
  · intro hn
    exact ⟨h.full n (by omega) (by omega), by omega⟩
  · rintro ⟨⟨a, ha, hn, -⟩, hlt⟩
    have := h.bound a ha
    omega

theorem StreamOk.contiguous (h : db.StreamOk) : db.StreamContiguous := by
  rw [StreamContiguous, h.headSeq_eq, ← h.behind le_rfl]
  refine ⟨h.floor, ?_⟩
  congr 1
  refine filter_congr fun n hn => ?_
  obtain ⟨a, ha, rfl, -⟩ := h.mem_joined_seqs.1 hn
  simp [h.bound a ha]

/-! ## A page -/

theorem decodeEnvelopes_ok {rows : List (Arrival × OplogRow)} {out : List RelayEnvelopeRow}
    (h : decodeEnvelopes rows = .ok out) :
    out.map (·.1) = rows.map (·.1.relaySeq) ∧ ∀ e ∈ out, e.2.1.body.v = envelopeVersion := by
  induction rows generalizing out with
  | nil =>
    obtain rfl := Except.ok.inj h
    simp
  | cons e rows ih =>
    obtain ⟨a, r⟩ := e
    rw [decodeEnvelopes] at h
    cases hop : SignedOp.fromBytes r.envelope with
    | error e => simp [hop] at h
    | ok op =>
      simp only [hop] at h
      cases hrest : decodeEnvelopes rows with
      | error e => simp [hrest, Except.map] at h
      | ok rest =>
        simp only [hrest, Except.map, Except.ok.injEq] at h
        subst h
        obtain ⟨hseqs, hv⟩ := ih hrest
        refine ⟨by simp [hseqs], forall_mem_cons.2 ⟨?_, hv⟩⟩
        exact SignedOp.fromBytes_version hop

theorem pageEntries_eq (total : ℕ) (entries : List RelayLogEntry) (rows : List RelayEnvelopeRow) :
    ∃ k, pageEntries total entries rows = entries ++ (rows.take k).map fun e => ⟨e.1, e.2.1⟩ := by
  induction rows generalizing total entries with
  | nil => exact ⟨0, by simp [pageEntries]⟩
  | cons e rows ih =>
    obtain ⟨seq, op, envelope⟩ := e
    rw [pageEntries]
    split_ifs
    · exact ⟨0, by simp⟩
    · obtain ⟨k, hk⟩ := ih (total + envelope.length) (entries ++ [⟨seq, op⟩])
      exact ⟨k + 1, by simp [hk]⟩

theorem relayPageConn_ok {after limit : ℕ} {page : RelayLogPage} (h : db.relayPageConn after limit = .ok page) :
    page.state = db.relayStreamState ∧
      (∃ k, k ≤ limit ∧ page.entries.map RelayLogEntry.seq =
        (((db.joined.map (·.1.relaySeq)).filter (after < ·)).orderBy id).take k) ∧
      ∀ entry ∈ page.entries, entry.op.body.v = envelopeVersion := by
  rw [relayPageConn, relaySinceWithEnvelopes] at h
  split_ifs at h
  · simp [Except.map] at h
  · simp [Except.map] at h
  · cases hdec : decodeEnvelopes
        (((db.joined.filter (·.1.relaySeq > after)).orderBy (·.1.relaySeq)).take limit) with
    | error e => simp [hdec, Except.map] at h
    | ok rows =>
      simp only [hdec, Except.map, Except.ok.injEq] at h
      subst h
      obtain ⟨hseqs, hv⟩ := decodeEnvelopes_ok hdec
      obtain ⟨k, hk⟩ := pageEntries_eq 0 [] rows
      rw [nil_append] at hk
      refine ⟨rfl, ⟨min k limit, min_le_right _ _, ?_⟩, ?_⟩
      · have hmap : (((db.joined.filter (·.1.relaySeq > after)).orderBy (·.1.relaySeq)).map (·.1.relaySeq)) =
            ((db.joined.map (·.1.relaySeq)).filter (after < ·)).orderBy id := by
          rw [map_orderBy, filter_map]
          rfl
        simp only [hk, map_map]
        rw [← hmap, ← take_take, ← map_take, ← hseqs, map_take]
        rfl
      · intro entry hent
        simp only [hk] at hent
        obtain ⟨e, he, rfl⟩ := mem_map.1 hent
        exact hv e (mem_of_mem_take he)

theorem StreamOk.servesAccepted (h : db.StreamOk) : db.ServesAccepted := by
  intro requestEpoch after limit hlim hmax hzero hrst page hpage
  obtain ⟨hstate, ⟨k, hk, hseqs⟩, hv⟩ := relayPageConn_ok hpage
  obtain ⟨hflr, hhead⟩ := accepted_bounds hzero hrst
  have hhead' : after ≤ db.lastSeq := h.headSeq_eq ▸ hhead
  rw [h.behind hflr] at hseqs
  have hcont : ProxyNode.contiguous page.state.head after (page.entries.map RelayLogEntry.seq) = true := by
    have hlast : after + (db.lastSeq - after) ≤ db.headSeq := by
      rw [h.headSeq_eq]
      omega
    rw [hseqs, hstate]
    exact contiguous_range' _ k hlast
  refine ⟨hcont, fun hep => ?_⟩
  have hlen : page.entries.length ≤ limit := by
    have := congrArg length hseqs
    rw [length_map, length_take] at this
    omega
  have hval : validRelayState db.relayStreamState = true := by
    have hle : db.compactedThroughSeq ≤ db.headSeq := h.headSeq_eq ▸ h.floor
    simp [validRelayState, relayStreamState, hep, hle]
  have hnext : ∀ entry ∈ page.entries, after ≤ entry.seq ∧ entry.seq ≤ db.headSeq := by
    intro entry hent
    have hmem : entry.seq ∈ page.entries.map RelayLogEntry.seq := mem_map_of_mem hent
    rw [hseqs] at hmem
    have hrng := mem_range'_1.1 (mem_of_mem_take hmem)
    rw [h.headSeq_eq]
    omega
  have hget := getRelayOps_accepted hlim hmax hval hrst (hstate ▸ hval) (hstate ▸ hrst) hlen hcont
  rw [hstate] at hget hcont
  exact ⟨_, _, hget, rfl, decode_page hval hrst hflr hhead hlen hcont hnext hv, rfl⟩

theorem relayPageConn_some {after limit : ℕ} (haft : after < 2 ^ 63) (hlim : limit < 2 ^ 63)
    (hdec : ∀ r ∈ db.oplog, ∃ op, SignedOp.fromBytes r.envelope = .ok op) :
    ∃ page, db.relayPageConn after limit = .ok page := by
  have hrows : ∀ rows : List (Arrival × OplogRow), (∀ e ∈ rows, e.2 ∈ db.oplog) →
      ∃ out, decodeEnvelopes rows = .ok out := by
    intro rows
    induction rows with
    | nil => exact fun _ => ⟨[], rfl⟩
    | cons e rows ih =>
      intro hmem
      obtain ⟨hr, hrest⟩ := forall_mem_cons.1 hmem
      obtain ⟨op, hop⟩ := hdec e.2 hr
      obtain ⟨out, hout⟩ := ih hrest
      exact ⟨_, by rw [decodeEnvelopes, hop, hout]; rfl⟩
  obtain ⟨out, hout⟩ := hrows
    (((db.joined.filter (·.1.relaySeq > after)).orderBy (·.1.relaySeq)).take limit) (fun e he => by
      have he := (mem_filter.1 ((mem_orderBy _).1 (mem_of_mem_take he))).1
      exact mem_of_find?_eq_some (mem_joined.1 he).2)
  refine ⟨⟨db.relayStreamState, pageEntries 0 [] out⟩, ?_⟩
  rw [relayPageConn, relaySinceWithEnvelopes, if_neg (by omega), if_neg (by omega), hout]
  rfl

/-! ## Where the stream breaks -/

theorem StreamContiguous.full (h : db.StreamContiguous) {n : ℕ} (hflr : db.compactedThroughSeq < n)
    (hhead : n ≤ db.headSeq) : n ∈ db.joined.map (·.1.relaySeq) := by
  have hmem : n ∈ range' (db.compactedThroughSeq + 1) (db.headSeq - db.compactedThroughSeq) := by
    rw [mem_range'_1]
    omega
  rw [← h.2, mem_orderBy] at hmem
  exact (mem_filter.1 hmem).1

theorem StreamOk.deleteRowBelow_iff (h : db.StreamOk) (row : RowRef) (c : OrderKey) (keep : Option OpId) :
    (db.deleteRowBelow row c keep).StreamContiguous ↔ db.Keeps (.deleteRowBelow row c keep) := by
  refine ⟨fun hcont r hr hbelow a ha hid => ?_, fun hkps => (h.deleteRowBelow hkps).contiguous⟩
  by_contra hlt
  have hhead : (db.deleteRowBelow row c keep).headSeq = db.lastSeq := h.headSeq_eq
  have hmem := hcont.full (n := a.relaySeq) (not_le.1 hlt) (hhead ▸ h.bound a ha)
  obtain ⟨⟨b, s⟩, hbs, hseq⟩ := mem_map.1 hmem
  obtain ⟨hb, hfind⟩ := mem_joined.1 hbs
  -- the joined arrival is the pruned op's own
  have hab : b = a := inj_on_of_nodup_map h.seqs hb ha hseq
  have hs := mem_filter.1 (mem_of_find?_eq_some hfind)
  have hsid : s.opId = b.opId := by simpa using find?_some hfind
  have hsr : s = r := inj_on_of_nodup_map h.ids hs.1 hr (by rw [hsid, hab, hid])
  rw [hsr, hbelow] at hs
  exact Bool.noConfusion hs.2

theorem StreamOk.rotate_iff (h : db.StreamOk) (random : Epoch) :
    (db.rotateRelayStreamEpoch random).StreamContiguous ↔ db.Keeps (.rotate random) := by
  refine ⟨fun hcont => ?_, fun hkps => (h.rotate hkps random).contiguous⟩
  by_contra hpos
  have hhead : (db.rotateRelayStreamEpoch random).headSeq = db.lastSeq := h.headSeq_eq
  have hmem := hcont.full (n := db.compactedThroughSeq) (Nat.pos_of_ne_zero hpos) (hhead ▸ h.floor)
  obtain ⟨⟨b, s⟩, hbs, hseq⟩ := mem_map.1 hmem
  exact h.hole.resolve_left hpos b (mem_joined.1 hbs).1 hseq

/-- In every run whose events keep holes and floor in step the stream is contiguous above
its floor and every accepted cursor is served; a prune or a rotation that does not keep
them breaks the stream at once. -/
theorem relay_stream_contiguous (isUpsert : List Byte → Bool) (epoch : Epoch) (events : List SqlEvent)
    (hkps : KeepsAll isUpsert events (empty epoch)) :
    ((empty epoch).sqlRun isUpsert events).StreamContiguous ∧
      ((empty epoch).sqlRun isUpsert events).ServesAccepted ∧
      (∀ row c keep, (((empty epoch).sqlRun isUpsert events).deleteRowBelow row c keep).StreamContiguous ↔
        ((empty epoch).sqlRun isUpsert events).Keeps (.deleteRowBelow row c keep)) ∧
      (∀ random, (((empty epoch).sqlRun isUpsert events).rotateRelayStreamEpoch random).StreamContiguous ↔
        ((empty epoch).sqlRun isUpsert events).Keeps (.rotate random)) ∧
      ((∀ r ∈ ((empty epoch).sqlRun isUpsert events).oplog, ∃ op, SignedOp.fromBytes r.envelope = .ok op) →
        ∀ after limit, after < 2 ^ 63 → limit < 2 ^ 63 →
          ∃ page, ((empty epoch).sqlRun isUpsert events).relayPageConn after limit = .ok page) := by
  have h := (streamOk_empty epoch).run isUpsert hkps
  exact ⟨h.contiguous, h.servesAccepted, h.deleteRowBelow_iff, h.rotate_iff,
    fun hdec after limit haft hlim => relayPageConn_some haft hlim hdec⟩

def drainedRun : List SqlEvent :=
  [.log (.append ⟨plainRowOp 1 1 1, "items", "a", originLocal, 0⟩),
    .log (.append ⟨plainRowOp 1 2 2, "items", "b", originLocal, 0⟩), .log (.compact plainPass)]

theorem relay_stream_contiguous_drained :
    KeepsAll (fun _ => false) drainedRun (empty (Wire.fill 32 7)) ∧
      ((empty (Wire.fill 32 7)).sqlRun (fun _ => false) drainedRun).compactedThroughSeq = 1 ∧
      ((empty (Wire.fill 32 7)).sqlRun (fun _ => false) drainedRun).StreamContiguous := by
  have hkps : KeepsAll (fun _ => false) drainedRun (empty (Wire.fill 32 7)) := by
    refine ⟨?_, ?_, trivial, trivial⟩ <;> decide +kernel
  exact ⟨hkps, by decide +kernel,
    (relay_stream_contiguous (fun _ => false) (Wire.fill 32 7) drainedRun hkps).1⟩

/-- Rotating after that pass, or pruning the second op, leaves a hole above the floor; the
page for first contact is then refused. -/
theorem relay_stream_gap :
    ¬((empty (Wire.fill 32 7)).sqlRun (fun _ => false)
        (drainedRun ++ [.rotate (Wire.fill 32 8)])).StreamContiguous ∧
      (match ((empty (Wire.fill 32 7)).sqlRun (fun _ => false)
          (drainedRun ++ [.rotate (Wire.fill 32 8)])).relayPageConn 0 512 with
        | .error _ => false
        | .ok page => getRelayOps page.state page zeroEpoch 0 512 matches .error .internalServerError) = true ∧
      ¬((empty (Wire.fill 32 7)).sqlRun (fun _ => false)
        (drainedRun ++ [.deleteRowBelow ⟨rowStoreId, "items",
          "b"⟩ (plainRowOp 1 3 3).orderKey none])).StreamContiguous := by
  refine ⟨?_, ?_, ?_⟩ <;> decide +kernel

end OplogDb

end ProxyNode
