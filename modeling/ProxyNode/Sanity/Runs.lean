import ProxyNode.Spec.Client
import ProxyNode.Sanity.Envelope
import ProxyNode.Sanity.Page

/-! Decoding the pages of an honest node: the positional entries come back with their
sequences, and the keyed entries fall into one run per non-empty segment. -/

namespace ProxyNode

open List

variable {peer : DeviceId} {op : SignedOp}

theorem decodePageOp_entryOf (hv : op.body.v = envelopeVersion) :
    decodePageOp (entryOf op) peer = .ok op := by
  simp only [decodePageOp, entryOf, SignedOp.fromBytes_toBytes hv]

/-- Only ops of the current version decode, and they decode to themselves. -/
theorem decodePageOp_ok {op' : SignedOp} (h : decodePageOp (entryOf op) peer = .ok op') :
    op' = op ∧ op.body.v = envelopeVersion := by
  by_cases hv : op.body.v = envelopeVersion
  · rw [decodePageOp_entryOf hv] at h
    exact ⟨(Except.ok.inj h).symm, hv⟩
  · simp only [decodePageOp, entryOf, SignedOp.fromBytes_toBytes_version hv, reduceCtorEq] at h

/-! ## The positional channel -/

def Advancing (last : ℕ) (l : List (ℕ × SignedOp)) : Prop :=
  (∀ e ∈ l, last < e.1) ∧ l.Pairwise fun a b => a.1 < b.1

variable {l : List (ℕ × SignedOp)}

theorem decodeBackfill_entries {after last : ℕ} (ha : Advancing last l)
    (hv : ∀ e ∈ l, e.2.body.v = envelopeVersion) :
    decodeBackfill peer after last (backfillEntries l) = .ok l := by
  induction l generalizing last with
  | nil => rfl
  | cons e l ih =>
    obtain ⟨hlast, hp⟩ := ha
    rw [pairwise_cons] at hp
    have hrest := ih ⟨hp.1, hp.2⟩ fun x hx => hv x (mem_cons_of_mem _ hx)
    rw [backfillEntries, map_cons, decodeBackfill, if_neg (not_le.2 (hlast e mem_cons_self)),
      decodePageOp_entryOf (hv e mem_cons_self)]
    rw [backfillEntries] at hrest
    simp only [hrest, Except.map]

theorem decodeBackfill_ok {after last : ℕ} {l' : List (ℕ × SignedOp)}
    (h : decodeBackfill peer after last (backfillEntries l) = .ok l') : l' = l ∧ ∀ e ∈ l, last < e.1 := by
  induction l generalizing last l' with
  | nil => exact ⟨(Except.ok.inj h).symm, by simp⟩
  | cons e l ih =>
    rw [backfillEntries, map_cons, decodeBackfill] at h
    split_ifs at h with hle
    cases hd : decodePageOp (entryOf e.2) peer with
    | error msg => rw [hd] at h; cases h
    | ok op =>
      rw [hd] at h
      obtain ⟨rfl, -⟩ := decodePageOp_ok hd
      cases hr : decodeBackfill peer after e.1 (backfillEntries l) with
      | error msg => rw [backfillEntries] at hr; simp only [hr, Except.map, reduceCtorEq] at h
      | ok rest =>
        obtain ⟨rfl, hlt⟩ := ih hr
        rw [backfillEntries] at hr
        simp only [hr, Except.map, Except.ok.injEq] at h
        refine ⟨h.symm, fun x hx => ?_⟩
        rcases mem_cons.1 hx with rfl | hx
        · exact not_le.1 hle
        · exact (not_le.1 hle).trans (hlt x hx)

theorem mem_coveredArrivals {claims : CoverageVector} {l : List SignedOp} {start : ℕ} {e : ℕ × SignedOp} :
    e ∈ coveredArrivals claims l start ↔
      ∃ i, l[i]? = some e.2 ∧ e.1 = start + i + 1 ∧ claims.covers e.2.orderKey = true := by
  obtain ⟨seq, op⟩ := e
  simp only [coveredArrivals, mem_map, mem_filter, Prod.exists, mem_zipIdx_iff_le_and_getElem?_sub]
  constructor
  · rintro ⟨x, j, ⟨⟨hj, hx⟩, hc⟩, he⟩
    obtain ⟨rfl, rfl⟩ := Prod.mk.inj he
    exact ⟨j - start, hx, by omega, hc⟩
  · rintro ⟨i, hi, rfl, hc⟩
    exact ⟨op, start + i, ⟨⟨by omega, by simpa using hi⟩, hc⟩, rfl⟩

theorem coveredArrivals_le {claims : CoverageVector} {l : List SignedOp} {start k : ℕ} {e : ℕ × SignedOp}
    (he : e ∈ coveredArrivals claims (l.take k) start) : e.1 ≤ start + k := by
  obtain ⟨i, hi, hseq, -⟩ := mem_coveredArrivals.1 he
  obtain ⟨hlt, -⟩ := List.getElem?_eq_some_iff.1 hi
  have := (Nat.succ_le_of_lt hlt).trans (length_take_le _ _)
  omega

theorem coveredArrivals_advancing (claims : CoverageVector) (l : List SignedOp) (start : ℕ) :
    Advancing start (coveredArrivals claims l start) := by
  refine ⟨fun e he => ?_, ?_⟩
  · obtain ⟨i, -, hi, -⟩ := mem_coveredArrivals.1 he
    omega
  · refine pairwise_map.2 (List.Pairwise.filter _ ?_)
    rw [← pairwise_map (f := fun e : SignedOp × ℕ => e.2) (R := fun a b => a + 1 < b + 1)]
    rw [zipIdx_map_snd]
    exact (pairwise_lt_range' 1).imp fun h => Nat.succ_lt_succ h

/-! ## The keyed channel -/

/-- The ops of a segment are its origin's, in ascending order. -/
def Segment.Sorted (s : Segment) : Prop :=
  (∀ op ∈ s.2, op.orderKey.device = s.1) ∧ s.2.Pairwise fun a b => a.orderKey < b.orderKey

def KeyedRun.segment (run : KeyedRun) : Segment := (run.origin, run.ops)

/-- Entries of the open run's origin, in ascending order, all join it. -/
theorem splitRuns_push (peer : DeviceId) (ops : List SignedOp) (rest : List PageEntry) (run : KeyedRun)
    (done : List KeyedRun) (last : OrderKey) (hv : ∀ op ∈ ops, op.body.v = envelopeVersion)
    (ho : ∀ op ∈ ops, op.orderKey.device = run.origin) (hl : ∀ op ∈ ops, last < op.orderKey)
    (hp : ops.Pairwise fun a b => a.orderKey < b.orderKey) :
    ∃ run' last', run'.segment = (run.origin, run.ops ++ ops) ∧
      splitRuns peer (ops.map entryOf ++ rest) (run :: done) (some last) =
        splitRuns peer rest (run' :: done) (some last') := by
  induction ops generalizing run last with
  | nil => exact ⟨run, last, by simp [KeyedRun.segment], rfl⟩
  | cons op ops ih =>
    rw [pairwise_cons] at hp
    have hop := ho op mem_cons_self
    obtain ⟨run', last', hseg, heq⟩ := ih (run.push op hop) op.orderKey
      (fun x hx => hv x (mem_cons_of_mem _ hx)) (fun x hx => ho x (mem_cons_of_mem _ hx))
      hp.1 hp.2
    refine ⟨run', last', ?_, ?_⟩
    · simpa [KeyedRun.push] using hseg
    · have hnot : ¬(some last).any (fun last => decide (op.orderKey ≤ last)) = true := by
        simpa using hl op mem_cons_self
      rw [map_cons, cons_append, splitRuns, decodePageOp_entryOf (hv op mem_cons_self)]
      simp only [dif_pos hop, if_neg hnot]
      exact heq

/-- A non-empty segment of a new origin becomes a run of its own. -/
theorem splitRuns_segment (peer : DeviceId) {s : Segment} (hs : s.Sorted) (hne : s.2 ≠ [])
    (hv : ∀ op ∈ s.2, op.body.v = envelopeVersion) (rest : List PageEntry) (runs : List KeyedRun)
    (last : Option OrderKey) (hnew : ∀ run ∈ runs.head?, s.1 ≠ run.origin)
    (hord : ∀ run ∈ runs.head?, 1 < runs.length → run.origin < s.1) :
    ∃ run last', run.segment = s ∧
      splitRuns peer (s.2.map entryOf ++ rest) runs last = splitRuns peer rest (run :: runs) last' := by
  obtain ⟨origin, ops⟩ := s
  obtain ⟨hdev, hp⟩ := hs
  cases ops with
  | nil => exact absurd rfl hne
  | cons op ops =>
    simp only at hdev hp hv hnew hord
    rw [pairwise_cons] at hp
    have hop : op.orderKey.device = origin := hdev op mem_cons_self
    obtain ⟨run, last', hseg, heq⟩ := splitRuns_push peer ops rest (.single op) runs op.orderKey
      (fun x hx => hv x (mem_cons_of_mem _ hx))
      (fun x hx => (hdev x (mem_cons_of_mem _ hx)).trans hop.symm) hp.1 hp.2
    refine ⟨run, some last', ?_, ?_⟩
    · rw [hseg, ← hop]
      rfl
    · rw [← heq, map_cons, cons_append, splitRuns,
        decodePageOp_entryOf (hv op mem_cons_self)]
      cases runs with
      | nil => rfl
      | cons run' done =>
        have h1 : op.orderKey.device ≠ run'.origin := hop ▸ hnew run' rfl
        have h2 : ¬(1 < (run' :: done).length ∧ op.orderKey.device < run'.origin) := by
          rintro ⟨hlen, hlt⟩
          exact lt_asymm (hop ▸ hlt) (hord run' rfl hlen)
        simp only [dif_neg h1, if_neg h2]

/-- Origins as a keyed channel visits them: the first anywhere, the others ascending. -/
def VisitSorted (origins : List DeviceId) : Prop := origins.tail.Pairwise (· < ·) ∧ origins.Nodup

variable {segs : List Segment}

/-- The runs behind `acc` are the non-empty segments, in order. -/
theorem splitRuns_from (peer : DeviceId) (hs : ∀ s ∈ segs, s.Sorted)
    (hv : ∀ s ∈ segs, ∀ op ∈ s.2, op.body.v = envelopeVersion) (hvis : VisitSorted (segs.map Prod.fst))
    (acc : List KeyedRun) (last : Option OrderKey) (hp : acc ≠ [] → segs.Pairwise fun a b => a.1 < b.1)
    (hnew : ∀ run, acc.head? = some run → ∀ s ∈ segs, s.1 ≠ run.origin)
    (hord : ∀ run, acc.head? = some run → 1 < acc.length → ∀ s ∈ segs, run.origin < s.1) :
    ∃ runs, splitRuns peer (segmentEntries segs) acc last = .ok runs ∧
      runs.reverse.map KeyedRun.segment =
        acc.reverse.map KeyedRun.segment ++ segs.filter fun s => decide (s.2 ≠ []) := by
  induction segs generalizing acc last with
  | nil => exact ⟨acc, rfl, by simp⟩
  | cons s segs ih =>
    obtain ⟨htail, hnd⟩ := hvis
    rw [map_cons, tail_cons] at htail
    rw [map_cons, nodup_cons] at hnd
    obtain ⟨hs, hs'⟩ := forall_mem_cons.1 hs
    obtain ⟨hv, hv'⟩ := forall_mem_cons.1 hv
    have ih := ih hs' hv' ⟨htail.tail, hnd.2⟩
    rw [segmentEntries_cons]
    by_cases hne : s.2 = []
    · rw [hne, map_nil, nil_append, filter_cons_of_neg (by simpa using hne)]
      exact ih acc last (fun h => (hp h).of_cons) (fun r hr t ht => hnew r hr t (mem_cons_of_mem _ ht))
        fun r hr hlen t ht => hord r hr hlen t (mem_cons_of_mem _ ht)
    · obtain ⟨run, last', hseg, heq⟩ := splitRuns_segment peer hs hne hv (segmentEntries segs) acc last
        (fun r hr => hnew r hr s mem_cons_self) fun r hr hlen => hord r hr hlen s mem_cons_self
      have hor : run.origin = s.1 := congrArg Prod.fst hseg
      have hnext : ∀ t ∈ segs, t.1 ≠ run.origin := fun t ht h => hnd.1 (mem_map.2 ⟨t, ht, h.trans hor⟩)
      have habove : 1 < (run :: acc).length → ∀ t ∈ segs, run.origin < t.1 := fun hlen t ht =>
        hor ▸ (pairwise_cons.1 (hp (ne_nil_of_length_pos (by simpa using hlen)))).1 t ht
      obtain ⟨runs, hok, hmap⟩ := ih (run :: acc) last' (fun _ => pairwise_map.1 htail)
        (fun r hr => Option.some.inj hr ▸ hnext) fun r hr => Option.some.inj hr ▸ habove
      refine ⟨runs, heq.trans hok, ?_⟩
      rw [hmap, filter_cons_of_pos (by simpa using hne), reverse_cons, map_append,
        map_singleton, hseg, append_assoc]
      rfl

/-- The runs of an honest keyed channel are its non-empty segments, in order. -/
theorem splitRuns_segments (peer : DeviceId) (hs : ∀ s ∈ segs, s.Sorted)
    (hv : ∀ s ∈ segs, ∀ op ∈ s.2, op.body.v = envelopeVersion) (hvis : VisitSorted (segs.map Prod.fst)) :
    ∃ runs, splitRuns peer (segmentEntries segs) [] none = .ok runs ∧
      runs.reverse.map KeyedRun.segment = segs.filter fun s => decide (s.2 ≠ []) :=
  splitRuns_from peer hs hv hvis [] none (fun h => absurd rfl h) nofun nofun

theorem splitRuns_decodes {entries : List PageEntry} {acc runs : List KeyedRun} {last : Option OrderKey}
    (h : splitRuns peer entries acc last = .ok runs) :
    ∀ e ∈ entries, ∃ op, decodePageOp e peer = .ok op := by
  induction entries generalizing acc last with
  | nil => simp
  | cons e entries ih =>
    rw [splitRuns] at h
    cases hd : decodePageOp e peer with
    | error msg => rw [hd] at h; cases h
    | ok op =>
      rw [hd] at h
      have hrest : ∀ e ∈ entries, ∃ op, decodePageOp e peer = .ok op := by
        cases acc with
        | nil => exact ih h
        | cons run done =>
          dsimp only at h
          split_ifs at h
          · exact ih h
          · exact ih h
      intro x hx
      rcases mem_cons.1 hx with rfl | hx
      · exact ⟨op, hd⟩
      · exact hrest x hx

theorem splitRuns_versions {runs : List KeyedRun} (h : splitRuns peer (segmentEntries segs) [] none = .ok runs) :
    ∀ s ∈ segs, ∀ op ∈ s.2, op.body.v = envelopeVersion := by
  intro s hs op hop
  obtain ⟨op', h'⟩ := splitRuns_decodes h (entryOf op)
    (mem_flatMap.2 ⟨s, hs, mem_map.2 ⟨op, hop, rfl⟩⟩)
  exact (decodePageOp_ok h').2

end ProxyNode
