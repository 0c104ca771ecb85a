import ProxyNode.Spec.Peers

/-! The floor that a retention horizon gives. The search bisects sequence numbers, its probes
land on the nearest arrival below, so its bounds move by midpoints and by positions of rows.
What carries it: an arrival not later than the cutoff is at most the best so far or lies
within the bounds. -/

namespace ProxyNode

namespace PeerDb

variable {db : PeerDb} {cutoff : ℤ}

def ArrivalsAscend (db : PeerDb) : Prop :=
  ∀ a ∈ db.log.arrivals, ∀ b ∈ db.log.arrivals, a.relaySeq ≤ b.relaySeq → a.arrivedAt ≤ b.arrivedAt

/-- The greatest sequence of an arrival not later than `cutoff`, 0 without one. -/
def IsHorizon (db : PeerDb) (cutoff floor : ℤ) : Prop :=
  (∃ a ∈ db.log.arrivals, a.arrivedAt ≤ cutoff ∧ floor = a.relaySeq ∧
    ∀ b ∈ db.log.arrivals, b.arrivedAt ≤ cutoff → b.relaySeq ≤ a.relaySeq) ∨
  (floor = 0 ∧ ∀ a ∈ db.log.arrivals, cutoff < a.arrivedAt)

/-! ## The search -/

structure Narrowed (db : PeerDb) (cutoff : ℤ) (s : HorizonSearch) : Prop where
  found : ∃ a ∈ db.log.arrivals, a.arrivedAt ≤ cutoff ∧ s.best = a.relaySeq
  within : ∀ a ∈ db.log.arrivals, a.arrivedAt ≤ cutoff →
    (a.relaySeq : ℤ) ≤ s.best ∨ s.lo ≤ a.relaySeq ∧ (a.relaySeq : ℤ) ≤ s.hi

def HorizonSearch.room (s : HorizonSearch) : ℕ := (s.hi + 1 - s.lo).toNat

/-- A probe: no arrival up to `mid`, or the last one up to `mid`. -/
theorem probe_cases (db : PeerDb) (mid : ℤ) :
    ((db.log.arrivals.filter fun a => (a.relaySeq : ℤ) ≤ mid).greatest (·.relaySeq) = none ∧
      ∀ b ∈ db.log.arrivals, mid < b.relaySeq) ∨
    ∃ a ∈ db.log.arrivals,
      (db.log.arrivals.filter fun a => (a.relaySeq : ℤ) ≤ mid).greatest (·.relaySeq) = some a ∧
      (a.relaySeq : ℤ) ≤ mid ∧ ∀ b ∈ db.log.arrivals, (b.relaySeq : ℤ) ≤ mid → b.relaySeq ≤ a.relaySeq := by
  cases h : (db.log.arrivals.filter fun a => (a.relaySeq : ℤ) ≤ mid).greatest (·.relaySeq) with
  | none =>
    refine .inl ⟨rfl, fun b hb => ?_⟩
    have hnone := List.filter_eq_nil_iff.1 (List.greatest_eq_none.1 h) b hb
    simpa using hnone
  | some a =>
    obtain ⟨ha, hlast⟩ := List.greatest_spec h
    rw [List.mem_filter, decide_eq_true_eq] at ha
    refine .inr ⟨a, ha.1, rfl, ha.2, fun b hb hmid => hlast b ?_⟩
    exact List.mem_filter.2 ⟨hb, decide_eq_true hmid⟩

variable {s : HorizonSearch}

/-- A turn ends the search with nothing left within its bounds, or narrows them. -/
theorem horizonTurn_cases (h : db.ArrivalsAscend → db.Narrowed cutoff s) :
    (db.horizonTurn cutoff s = .inl s.best ∧ s.hi < s.lo) ∨
    ∃ s', db.horizonTurn cutoff s = .inr s' ∧ (db.ArrivalsAscend → db.Narrowed cutoff s') ∧ s'.room < s.room := by
  by_cases hle : s.lo ≤ s.hi
  · right
    generalize hmid : s.lo + (s.hi - s.lo) / 2 = mid
    have hlo : s.lo ≤ mid := by omega
    have hhi : mid ≤ s.hi := by omega
    rcases db.probe_cases mid with ⟨hprobe, hnone⟩ | ⟨a, ha, hprobe, hamid, hlast⟩
    · -- no arrival up to the midpoint
      refine ⟨{ s with lo := mid + 1 }, ?_, fun hup => ⟨(h hup).found, fun b hb hold => ?_⟩, ?_⟩
      · simp only [horizonTurn, if_pos hle, hmid, hprobe]
      · rcases (h hup).within b hb hold with hbest | ⟨-, hbhi⟩
        · exact .inl hbest
        · exact .inr ⟨hnone b hb, hbhi⟩
      · simp only [HorizonSearch.room]
        omega
    · by_cases hold : a.arrivedAt ≤ cutoff
      · -- what lies up to the midpoint is at most the probe's arrival
        refine ⟨{ s with lo := mid + 1, best := max s.best a.relaySeq }, ?_,
          fun hup => ⟨?_, fun b hb hbold => ?_⟩, ?_⟩
        · simp only [horizonTurn, if_pos hle, hmid, hprobe, if_pos hold]
        · obtain ⟨c, hc, hcold, hcbest⟩ := (h hup).found
          rcases max_choice s.best (a.relaySeq : ℤ) with hmax | hmax
          · exact ⟨c, hc, hcold, hmax.trans hcbest⟩
          · exact ⟨a, ha, hold, hmax⟩
        · rcases (h hup).within b hb hbold with hbest | ⟨-, hbhi⟩
          · exact .inl (hbest.trans (le_max_left _ _))
          · by_cases hbmid : (b.relaySeq : ℤ) ≤ mid
            · have hba : (b.relaySeq : ℤ) ≤ a.relaySeq := by exact_mod_cast hlast b hb hbmid
              exact .inl (hba.trans (le_max_right _ _))
            · exact .inr ⟨by dsimp only; omega, hbhi⟩
        · simp only [HorizonSearch.room]
          omega
      · -- whatever is not later than the cutoff came before the probe's arrival
        refine ⟨{ s with hi := a.relaySeq - 1 }, ?_, fun hup => ⟨(h hup).found, fun b hb hbold => ?_⟩, ?_⟩
        · simp only [horizonTurn, if_pos hle, hmid, hprobe, if_neg hold]
        · rcases (h hup).within b hb hbold with hbest | ⟨hblo, -⟩
          · exact .inl hbest
          · have hlt : b.relaySeq < a.relaySeq := by
              by_contra hge
              exact hold ((hup a ha b hb (Nat.le_of_not_lt hge)).trans hbold)
            exact .inr ⟨hblo, by dsimp only; omega⟩
        · simp only [HorizonSearch.room]
          omega
  · exact .inl ⟨by simp only [horizonTurn, if_neg hle], Int.not_le.1 hle⟩

/-- The search ends whatever the arrival times; that they ascend makes its result exact. -/
theorem search_ends (h : db.Narrowed cutoff s) {fuel : ℕ} (hfuel : s.room < fuel) :
    ∃ floor, Loop.run (db.horizonTurn cutoff) fuel s = some floor ∧
      (db.ArrivalsAscend → db.IsHorizon cutoff floor) := by
  refine Loop.run_within (fun s => db.ArrivalsAscend → db.Narrowed cutoff s) _ HorizonSearch.room
    (fun s hs => ?_) (fun _ => h) hfuel
  refine (horizonTurn_cases hs).imp_left ?_
  rintro ⟨hbest, hemp⟩
  refine ⟨_, hbest, fun hup => ?_⟩
  obtain ⟨a, ha, hold, hseq⟩ := (hs hup).found
  refine .inl ⟨a, ha, hold, hseq, fun b hb hbold => ?_⟩
  rcases (hs hup).within b hb hbold with hle | ⟨hlo, hhi⟩
  · exact_mod_cast hseq ▸ hle
  · omega

/-! ## The floor -/

/-- The search starts at the oldest arrival, which is not later than the cutoff. -/
theorem narrowed_start {oldest newest : Arrival} (holdest : db.log.arrivals.least (·.relaySeq) = some oldest)
    (hnew : db.log.arrivals.greatest (·.relaySeq) = some newest) (hold : oldest.arrivedAt ≤ cutoff) :
    db.Narrowed cutoff ⟨oldest.relaySeq, newest.relaySeq, oldest.relaySeq⟩ := by
  obtain ⟨hmem, hfst⟩ := List.least_spec holdest
  obtain ⟨-, hlast⟩ := List.greatest_spec hnew
  refine ⟨⟨oldest, hmem, hold, rfl⟩, fun a ha _ => Or.inr ⟨?_, ?_⟩⟩
  · exact Int.ofNat_le.2 (hfst a ha)
  · exact Int.ofNat_le.2 (hlast a ha)

theorem horizonRelayFloorWithin_mono {turns more : ℕ} {floor : ℤ}
    (h : db.horizonRelayFloorWithin turns cutoff = some floor) (hle : turns ≤ more) :
    db.horizonRelayFloorWithin more cutoff = some floor := by
  unfold horizonRelayFloorWithin at h ⊢
  split at h
  · split_ifs at h ⊢
    · exact h
    · exact h
    · exact Loop.run_mono h hle
  · exact h

/-- A turn for every sequence number up to the newest arrival, and two more, are enough. -/
theorem horizonRelayFloorWithin_ends : ∃ floor,
    db.horizonRelayFloorWithin ((db.log.arrivals.greatest (·.relaySeq)).elim 0 (·.relaySeq) + 2) cutoff =
      some floor ∧ (db.ArrivalsAscend → db.IsHorizon cutoff floor) := by
  unfold horizonRelayFloorWithin
  cases holdest : db.log.arrivals.least (·.relaySeq) with
  | none =>
    have hnil := List.least_eq_none.1 holdest
    refine ⟨0, rfl, fun _ => Or.inr ⟨rfl, ?_⟩⟩
    rw [hnil]
    exact fun a ha => absurd ha List.not_mem_nil
  | some oldest =>
    obtain ⟨hmem, hfst⟩ := List.least_spec holdest
    cases hnew : db.log.arrivals.greatest (·.relaySeq) with
    | none =>
      rw [List.greatest_eq_none.1 hnew] at hmem
      exact absurd hmem List.not_mem_nil
    | some newest =>
      obtain ⟨hmem', hlast⟩ := List.greatest_spec hnew
      dsimp only
      split_ifs with hyoung hall
      · refine ⟨0, rfl, fun hup => Or.inr ⟨rfl, fun a ha => ?_⟩⟩
        exact lt_of_lt_of_le hyoung (hup oldest hmem a ha (hfst a ha))
      · exact ⟨_, rfl, fun _ => Or.inl ⟨newest, hmem', hall, rfl, fun b hb _ => hlast b hb⟩⟩
      · refine search_ends (narrowed_start holdest hnew (not_lt.1 hyoung)) ?_
        simp only [HorizonSearch.room, Option.elim_some]
        omega

/-- If arrival times do not descend along the sequence, the search ends, and the floor is the
greatest sequence of an arrival not later than the cutoff, 0 without one. -/
theorem horizon_floor_exact (db : PeerDb) (cutoff : ℤ) (hup : db.ArrivalsAscend) :
    (∃ enough, ∀ turns, enough ≤ turns →
      db.horizonRelayFloorWithin turns cutoff = some (db.horizonRelayFloor cutoff)) ∧
    db.IsHorizon cutoff (db.horizonRelayFloor cutoff) := by
  obtain ⟨floor, hflr, hexact⟩ := @horizonRelayFloorWithin_ends db cutoff
  have heq : db.horizonRelayFloor cutoff = floor := by
    rw [horizonRelayFloor, hflr]
    rfl
  rw [heq]
  exact ⟨⟨_, fun turns hle => horizonRelayFloorWithin_mono hflr hle⟩, hexact hup⟩

def gappedArrivals : PeerDb :=
  let op (n : Fin 256) : OpId := ⟨List.replicate 32 n, List.length_replicate⟩
  { empty zeroEpoch with
    log := { OplogDb.empty zeroEpoch with
      arrivals := [⟨2, op 0, 10⟩, ⟨3, op 1, 10⟩, ⟨9, op 2, 20⟩, ⟨14, op 3, 40⟩] } }

theorem gapped_horizon_exact :
    gappedArrivals.ArrivalsAscend ∧ gappedArrivals.horizonRelayFloor 30 = 9 ∧
    (∃ enough, ∀ turns, enough ≤ turns →
      gappedArrivals.horizonRelayFloorWithin turns 30 = some (gappedArrivals.horizonRelayFloor 30)) ∧
    gappedArrivals.IsHorizon 30 (gappedArrivals.horizonRelayFloor 30) :=
  have hup : gappedArrivals.ArrivalsAscend := by
    unfold ArrivalsAscend
    decide
  ⟨hup, by decide, horizon_floor_exact gappedArrivals 30 hup⟩

end PeerDb

end ProxyNode
