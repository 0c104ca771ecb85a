import ProxyNode.Sanity.Arrivals
import ProxyNode.Sanity.Envelope
import ProxyNode.Spec.Relay

/-! What a relay response carries and what a puller takes from it: a reset to the floor, or
the arrivals behind the cursor under their sequences. -/

namespace ProxyNode

open List Except

variable {after limit : ℕ}

/-- The three ways a page request is answered. -/
theorem getRelayOps_ok {stream : RelayStreamState} {page : RelayLogPage} {epoch : Epoch} {wire : RelayResponse}
    (h : getRelayOps stream page epoch after limit = .ok wire) :
    (∃ state, wire = relayResponse state true state.floor [] ∧ (state = stream ∨ state = page.state)) ∨
      relayNeedsReset epoch after page.state = false ∧
        wire = relayResponse page.state false
          ((page.entries.getLast?.map RelayLogEntry.seq).getD after) page.entries := by
  unfold getRelayOps at h
  split_ifs at h with h1 h2 h3 h4 h5 h6 h7
  · exact .inl ⟨stream, (ok.inj h).symm, .inl rfl⟩
  · exact .inl ⟨page.state, (ok.inj h).symm, .inr rfl⟩
  · exact .inr ⟨by simpa using h5, (ok.inj h).symm⟩

variable {cursor : RelayCursor}

theorem decodeRelayResponse_ok {wire : RelayResponse} {maxEntries : ℕ} {page : RelayPage}
    (h : decodeRelayResponse wire cursor maxEntries false = .ok page) :
    page.epoch = wire.epoch ∧ page.next = wire.next ∧ page.reset = wire.reset ∧
      (wire.reset = false → decodeRelayEntries wire.entries = .ok page.entries) := by
  unfold decodeRelayResponse at h
  simp only at h
  split_ifs at h with h1 h2 h3 h4 h5
  · obtain rfl := ok.inj h
    exact ⟨rfl, rfl, h3.symm, fun hr => by simp [h3] at hr⟩
  · cases hd : decodeRelayEntries wire.entries with
    | error e => simp [hd] at h
    | ok entries =>
      simp only [hd, ok.injEq] at h
      subst h
      exact ⟨rfl, rfl, by simpa using h3, fun _ => rfl⟩

variable {entries : List RelayLogEntry}

/-- Envelopes that decode at all decode to the ops they were written from. -/
theorem decodeRelayEntries_toBytes {ops : List RelayOp}
    (h : decodeRelayEntries (entries.map fun entry => ⟨entry.seq, entry.op.toBytes⟩) = .ok ops) :
    ops = entries.map (fun entry => ⟨entry.seq, entry.op⟩) ∧
      ∀ entry ∈ entries, entry.op.body.v = envelopeVersion := by
  induction entries generalizing ops with
  | nil => simpa [decodeRelayEntries] using h.symm
  | cons entry entries ih =>
    rw [map_cons, decodeRelayEntries] at h
    by_cases hv : entry.op.body.v = envelopeVersion
    · rw [SignedOp.fromBytes_toBytes hv] at h
      cases hd : decodeRelayEntries (entries.map fun entry => ⟨entry.seq, entry.op.toBytes⟩) with
      | error e => simp [hd] at h
      | ok rest =>
        simp only [hd, ok.injEq] at h
        rw [← h, (ih hd).1, map_cons]
        exact ⟨rfl, forall_mem_cons.2 ⟨hv, (ih hd).2⟩⟩
    · simp [SignedOp.fromBytes_toBytes_version hv] at h

theorem decodeRelayEntries_version (h : ∀ entry ∈ entries, entry.op.body.v = envelopeVersion) :
    decodeRelayEntries (entries.map fun entry => ⟨entry.seq, entry.op.toBytes⟩) =
      .ok (entries.map fun entry => ⟨entry.seq, entry.op⟩) := by
  induction entries with
  | nil => rfl
  | cons entry entries ih =>
    obtain ⟨hv, hrest⟩ := forall_mem_cons.1 h
    rw [map_cons, decodeRelayEntries, SignedOp.fromBytes_toBytes hv, ih hrest]
    rfl

def relayEntries (server : OpLog) (after limit : ℕ) : List RelayOp :=
  (((server.arrivals.drop after).take limit).zipIdx after).map fun e => ⟨e.2 + 1, e.1⟩

theorem fetchRelayOps_ok {server : OpLog} {page : RelayPage} (h : fetchRelayOps server cursor limit = .ok page) :
    page.epoch = server.relayEpoch ∧ (page.reset = true → page.next = 0) ∧
      (page.reset = false → relayNeedsReset cursor.epoch cursor.after server.relayState = false ∧
        page.entries = relayEntries server cursor.after limit ∧
        ∀ entry ∈ page.entries, entry.op.body.v = envelopeVersion) := by
  unfold fetchRelayOps at h
  cases hg : getRelayOps server.relayState (server.relayPage cursor.after limit) cursor.epoch
      cursor.after limit with
  | error e => simp [hg] at h
  | ok wire =>
    simp only [hg] at h
    obtain ⟨hep, hnext, hrst, hents⟩ := decodeRelayResponse_ok h
    rcases getRelayOps_ok hg with ⟨state, rfl, hstate⟩ | ⟨hneeds, rfl⟩
    · have hs : state = server.relayState := hstate.elim id id
      refine ⟨by rw [hep, hs]; rfl, fun _ => by rw [hnext, hs]; rfl, fun hr => ?_⟩
      simp [hrst, relayResponse] at hr
    · refine ⟨hep, fun hr => by simp [hrst, relayResponse] at hr, fun _ => ⟨hneeds, ?_⟩⟩
      obtain ⟨hops, hv⟩ := decodeRelayEntries_toBytes (hents rfl)
      constructor
      · rw [hops, OpLog.relayPage_entries, map_map]
        rfl
      · intro entry hent
        rw [hops] at hent
        obtain ⟨e, he, rfl⟩ := mem_map.1 hent
        exact hv e he

/-! ## Accepted answers -/

theorem contiguous_range' {head : ℕ} (m k : ℕ) (h : after + m ≤ head) :
    contiguous head after ((range' (after + 1) m).take k) = true := by
  induction m generalizing after k with
  | zero => simp [contiguous]
  | succ m ih =>
    cases k with
    | zero => rfl
    | succ k =>
      have hrest : contiguous head (after + 1) ((range' (after + 1 + 1) m).take k) = true :=
        ih k (by omega)
      have hle : after + 1 ≤ head := by omega
      simp [range'_succ, contiguous, hle, hrest]

variable {state : RelayStreamState}

/-- An accepted cursor is at or above the floor and not past the head. -/
theorem accepted_bounds {requestEpoch : Epoch} (hzero : requestEpoch = zeroEpoch → after = 0)
    (h : relayNeedsReset requestEpoch after state = false) :
    state.floor ≤ after ∧ after ≤ state.head := by
  simp only [relayNeedsReset, decide_eq_false_iff_not, not_or, not_and, not_lt, gt_iff_lt, ne_eq, not_not] at h
  obtain ⟨hflr, hep, hsame⟩ := h
  by_cases hz : requestEpoch = zeroEpoch
  · have := hflr hz
    have := hzero hz
    omega
  · exact hsame (hep hz)

/-- The answer to a cursor that both reads accept, over a page that continues it. -/
theorem getRelayOps_accepted {stream : RelayStreamState} {page : RelayLogPage} {requestEpoch : Epoch}
    (hlim : 0 < limit) (hmax : limit ≤ defaultPullLimit) (hval : validRelayState stream = true)
    (hrst : relayNeedsReset requestEpoch after stream = false) (hval' : validRelayState page.state = true)
    (hrst' : relayNeedsReset requestEpoch after page.state = false) (hlen : page.entries.length ≤ limit)
    (hcont : contiguous page.state.head after (page.entries.map RelayLogEntry.seq) = true) :
    getRelayOps stream page requestEpoch after limit =
      .ok (relayResponse page.state false ((page.entries.getLast?.map RelayLogEntry.seq).getD after)
        page.entries) := by
  have hbad : ¬(limit = 0 ∨ limit > defaultPullLimit) := by omega
  rw [getRelayOps, if_neg hbad]
  simp [hval, hrst, hval', hrst', hcont, Nat.not_lt.2 hlen]

theorem validRelayState_bounds (h : validRelayState state = true) :
    ¬(state.epoch = zeroEpoch ∨ state.floor > state.head) := by
  simp only [validRelayState, decide_eq_true_eq] at h
  rintro (he | hf)
  · exact h.1 he
  · omega

theorem decode_reset (hval : validRelayState state = true)
    (hrst : relayNeedsReset cursor.epoch cursor.after state = true) (maxEntries : ℕ) (statusOnly : Bool) :
    decodeRelayResponse (relayResponse state true state.floor []) cursor maxEntries statusOnly =
      .ok ⟨state.epoch, state.head, state.floor, state.floor, true, []⟩ := by
  simp only [relayNeedsReset, decide_eq_true_eq] at hrst
  simp only [decodeRelayResponse, relayResponse]
  rw [if_neg (by simp), if_neg (validRelayState_bounds hval)]
  simp [hrst]

theorem decode_status (hval : validRelayState state = true)
    (hrst : relayNeedsReset cursor.epoch cursor.after state = false) (maxEntries : ℕ) :
    decodeRelayResponse (relayResponse state false cursor.after []) cursor maxEntries true =
      .ok ⟨state.epoch, state.head, state.floor, cursor.after, false, []⟩ := by
  simp only [relayNeedsReset, decide_eq_false_iff_not] at hrst
  simp only [decodeRelayResponse, relayResponse]
  rw [if_neg (by simp), if_neg (validRelayState_bounds hval)]
  simp [hrst, decodeRelayEntries]

theorem decode_page (hval : validRelayState state = true)
    (hrst : relayNeedsReset cursor.epoch cursor.after state = false) (hflr : state.floor ≤ cursor.after)
    (hhead : cursor.after ≤ state.head) (hlen : entries.length ≤ limit)
    (hcont : contiguous state.head cursor.after (entries.map RelayLogEntry.seq) = true)
    (hnext : ∀ entry ∈ entries, cursor.after ≤ entry.seq ∧ entry.seq ≤ state.head)
    (hv : ∀ entry ∈ entries, entry.op.body.v = envelopeVersion) :
    decodeRelayResponse
        (relayResponse state false ((entries.getLast?.map RelayLogEntry.seq).getD cursor.after) entries)
        cursor limit false =
      .ok ⟨state.epoch, state.head, state.floor, (entries.getLast?.map RelayLogEntry.seq).getD cursor.after,
        false, entries.map fun entry => ⟨entry.seq, entry.op⟩⟩ := by
  generalize hn : (entries.getLast?.map RelayLogEntry.seq).getD cursor.after = next
  have hbds : cursor.after ≤ next ∧ next ≤ state.head := by
    cases hlast : entries.getLast? with
    | none =>
      rw [hlast] at hn
      exact ⟨le_of_eq hn, hn ▸ hhead⟩
    | some entry =>
      rw [hlast] at hn
      exact hn ▸ hnext entry (mem_of_getLast? hlast)
  have hexpected : ((entries.map fun entry => (⟨entry.seq, entry.op.toBytes⟩ : RelayWireEntry)).getLast?.map
      RelayWireEntry.seq).getD cursor.after = next := by
    rw [getLast?_map, Option.map_map, ← hn]
    rfl
  have hseqs : (entries.map fun entry => (⟨entry.seq, entry.op.toBytes⟩ : RelayWireEntry)).map RelayWireEntry.seq =
      entries.map RelayLogEntry.seq := by
    rw [map_map]
    rfl
  simp only [relayNeedsReset, decide_eq_false_iff_not] at hrst
  have hlast : ¬(next < state.floor ∨ next > state.head) := by omega
  simp only [decodeRelayResponse, relayResponse, hexpected, hseqs, hcont, decide_eq_true_eq, hrst,
    decodeRelayEntries_version hv, length_map]
  rw [if_neg (by simp), if_neg (validRelayState_bounds hval)]
  simp [Nat.not_lt.2 hlen, hlast]

end ProxyNode
