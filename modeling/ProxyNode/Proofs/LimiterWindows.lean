import Mathlib.Data.List.Count
import ProxyNode.Spec.Limiter

/-! What the limiter bounds. The events of one window are at most `per`, but a window opens
with an event, so a span of the same length can take the end of one window and the start of the
next. That is within the limit only if a window admits one event, or lasts one second. -/

namespace ProxyNode.OAuth.Limiter

open List SortedMap

variable {l : Limiter} {source : Text} {now last : ℕ}

/-! ## One call -/

/-- Only windows that are over are dropped. -/
theorem evicted_get? (l : Limiter) (source : Text) (now : ℕ) :
    (l.evicted now).get? source = l.windows.get? source ∨
      (l.evicted now).get? source = none ∧
        ∃ w, l.windows.get? source = some w ∧ l.windowSecs ≤ now - w.1 := by
  unfold evicted
  split_ifs
  · rw [get?_retain]
    cases l.windows.get? source with
    | none => exact .inl rfl
    | some w =>
      by_cases hw : now - w.1 < l.windowSecs
      · exact .inl (by simp [hw])
      · exact .inr ⟨by simpa using hw, w, rfl, Nat.not_lt.1 hw⟩
  · exact .inl rfl

/-- A window that is dropped would have opened anew. -/
theorem window_eq (l : Limiter) (source : Text) (now : ℕ) :
    l.window source now = match l.windows.get? source with
      | none => (now, 0)
      | some w => if l.windowSecs ≤ now - w.1 then (now, 0) else w := by
  unfold window
  rcases l.evicted_get? source now with hsame | ⟨hnone, w, hw, hover⟩
  · rw [hsame]
    cases l.windows.get? source with
    | none => exact ite_self _
    | some w => rfl
  · rw [hnone, hw]
    dsimp only
    rw [if_pos hover]
    exact ite_self _

/-- One call: the window it falls in, counted up if it has room. -/
theorem allow_cases (l : Limiter) (source : Text) (now : ℕ) :
    (l.window source now).2 < l.per ∧ l.allow source now =
        (⟨l.per, l.windowSecs, (l.evicted now).insert source
          ((l.window source now).1, (l.window source now).2 + 1)⟩, true) ∨
      l.per ≤ (l.window source now).2 ∧ l.allow source now =
        (⟨l.per, l.windowSecs, (l.evicted now).insert source (l.window source now)⟩, false) := by
  unfold allow
  by_cases hfull : l.per ≤ (l.window source now).2
  · exact .inr ⟨hfull, if_pos hfull⟩
  · exact .inl ⟨Nat.not_le.1 hfull, if_neg hfull⟩

theorem allow_of_room (hroom : (l.window source now).2 < l.per) :
    (l.allow source now).1 = ⟨l.per, l.windowSecs, (l.evicted now).insert source
      ((l.window source now).1, (l.window source now).2 + 1)⟩ := by
  rcases l.allow_cases source now with ⟨-, heq⟩ | ⟨hfull, -⟩
  · rw [heq]
  · exact absurd hroom (Nat.not_lt.2 hfull)

theorem allow_of_full (hfull : l.per ≤ (l.window source now).2) :
    (l.allow source now).1 = ⟨l.per, l.windowSecs, (l.evicted now).insert source (l.window source now)⟩ := by
  rcases l.allow_cases source now with ⟨hroom, -⟩ | ⟨-, heq⟩
  · exact absurd hroom (Nat.not_lt.2 hfull)
  · rw [heq]

theorem allow_limits (l : Limiter) (source : Text) (now : ℕ) :
    (l.allow source now).1.per = l.per ∧ (l.allow source now).1.windowSecs = l.windowSecs := by
  rcases l.allow_cases source now with ⟨-, h⟩ | ⟨-, h⟩ <;> rw [h] <;> exact ⟨rfl, rfl⟩

/-! ## The events allowed -/

/-- The allowed events of a source, each with the opening of the window it was counted in. -/
def allowed (l : Limiter) (source : Text) : List (Text × ℕ) → List (ℕ × ℕ)
  | [] => []
  | (caller, now) :: calls =>
    (if caller = source ∧ (l.allow caller now).2 then [(now, (l.window caller now).1)] else []) ++
      (l.allow caller now).1.allowed source calls

theorem allowedIn_eq (l : Limiter) (calls : List (Text × ℕ)) (source : Text) (t : ℕ) :
    l.allowedIn calls source t = (l.allowed source calls).countP fun e => t ≤ e.1 ∧ e.1 < t + l.windowSecs := by
  induction calls generalizing l with
  | nil => rfl
  | cons call calls ih =>
    obtain ⟨caller, now⟩ := call
    have hrest := ih (l.allow caller now).1
    rw [allowedIn, (l.allow_limits caller now).2] at hrest
    rw [allowedIn, answers, zip_cons_cons, countP_cons, hrest, allowed, countP_append, Nat.add_comm]
    congr 1
    by_cases hin : caller = source ∧ (l.allow caller now).2 = true
    · rw [if_pos hin, countP_singleton]
      simp only [hin.1, hin.1 ▸ hin.2, true_and, and_true]
    · rw [if_neg hin, countP_nil, if_neg]
      simp only [decide_eq_true_eq]
      exact fun h => hin ⟨h.1, h.2.2.2⟩

/-- What is known of the allowed events of a source after calls up to `last`. -/
structure Counted (l : Limiter) (source : Text) (events : List (ℕ × ℕ)) (last : ℕ) : Prop where
  inside : ∀ e ∈ events, e.2 ≤ e.1 ∧ e.1 < e.2 + l.windowSecs
  apart : ∀ e ∈ events, ∀ f ∈ events, e.2 = f.2 ∨ e.2 + l.windowSecs ≤ f.2 ∨ f.2 + l.windowSecs ≤ e.2
  share : ∀ s, events.countP (·.2 = s) ≤ l.per
  first : l.per = 1 → ∀ e ∈ events, e.1 = e.2
  past : l.windows.get? source = none → ∀ e ∈ events, e.2 + l.windowSecs ≤ last
  current : ∀ w, l.windows.get? source = some w → w.1 ≤ last ∧ events.countP (·.2 = w.1) = w.2 ∧
    (0 < l.per → 0 < w.2) ∧ ∀ e ∈ events, e.2 = w.1 ∨ e.2 + l.windowSecs ≤ w.1

variable {events : List (ℕ × ℕ)}

theorem Counted.window (h : l.Counted source events last) (hsecs : 0 < l.windowSecs) (hnow : last ≤ now) :
    (l.window source now).1 ≤ now ∧ now < (l.window source now).1 + l.windowSecs ∧
      events.countP (·.2 = (l.window source now).1) = (l.window source now).2 ∧
      (l.per = 1 → (l.window source now).2 = 0 → (l.window source now).1 = now) ∧
      ∀ e ∈ events, e.2 = (l.window source now).1 ∨ e.2 + l.windowSecs ≤ (l.window source now).1 := by
  -- a window that opens with the call holds no earlier event
  have hopens : (∀ e ∈ events, e.2 + l.windowSecs ≤ now) → now ≤ now ∧ now < now + l.windowSecs ∧
      events.countP (·.2 = now) = 0 ∧ (l.per = 1 → 0 = 0 → now = now) ∧
      ∀ e ∈ events, e.2 = now ∨ e.2 + l.windowSecs ≤ now := by
    intro hover
    refine ⟨le_rfl, by omega, ?_, fun _ _ => rfl, fun e he => Or.inr (hover e he)⟩
    rw [countP_eq_zero]
    intro e he
    have := hover e he
    simp only [decide_eq_true_eq]
    omega
  rw [l.window_eq]
  cases hget : l.windows.get? source with
  | none => exact hopens fun e he => (h.past hget e he).trans hnow
  | some w =>
    obtain ⟨hstart, hcnt, hpos, hold⟩ := h.current w hget
    dsimp only
    split_ifs with hover
    · refine hopens fun e he => ?_
      rcases hold e he with heq | hle <;> omega
    · refine ⟨hstart.trans hnow, by omega, hcnt, fun hper hzero => ?_, hold⟩
      have := hpos (by omega)
      omega

theorem Counted.other (h : l.Counted source events last) (hnow : last ≤ now) {caller : Text}
    (hne : source ≠ caller) : (l.allow caller now).1.Counted source events now := by
  obtain ⟨hper, hsecs⟩ := l.allow_limits caller now
  have hget : (l.allow caller now).1.windows.get? source = (l.evicted now).get? source := by
    rcases l.allow_cases caller now with ⟨-, heq⟩ | ⟨-, heq⟩ <;>
    · rw [heq]
      exact (get?_insert _ _ _ _).trans (if_neg hne)
  constructor
  · rw [hsecs]
    exact h.inside
  · rw [hsecs]
    exact h.apart
  · rw [hper]
    exact h.share
  · rw [hper]
    exact h.first
  · rw [hget, hsecs]
    intro hnone e he
    rcases l.evicted_get? source now with hsame | ⟨-, w, hw, hover⟩
    · exact (h.past (hsame.symm.trans hnone) e he).trans hnow
    · obtain ⟨hstart, -, -, hold⟩ := h.current w hw
      rcases hold e he with heq | hle <;> omega
  · rw [hget, hsecs, hper]
    intro w hw
    rcases l.evicted_get? source now with hsame | ⟨hnone, -⟩
    · obtain ⟨hstart, hrest⟩ := h.current w (hsame.symm.trans hw)
      exact ⟨hstart.trans hnow, hrest⟩
    · rw [hnone] at hw
      cases hw

theorem countP_snoc (events : List (ℕ × ℕ)) (s t : ℕ) :
    (events ++ [(now, s)]).countP (·.2 = t) = events.countP (·.2 = t) + if s = t then 1 else 0 := by
  rw [countP_append, countP_singleton]
  simp only [decide_eq_true_eq]

/-- A window that no other reaches into keeps the windows apart. -/
theorem Counted.apart_snoc (h : l.Counted source events last) {s : ℕ}
    (hold : ∀ e ∈ events, e.2 = s ∨ e.2 + l.windowSecs ≤ s) :
    ∀ e ∈ events ++ [(now, s)], ∀ f ∈ events ++ [(now, s)],
      e.2 = f.2 ∨ e.2 + l.windowSecs ≤ f.2 ∨ f.2 + l.windowSecs ≤ e.2 := by
  simp only [forall_mem_append, forall_mem_singleton]
  refine ⟨fun e he => ⟨h.apart e he, (hold e he).imp_right Or.inl⟩, fun f hf => ?_, .inl trivial⟩
  rcases hold f hf with heq | hle
  · exact .inl heq.symm
  · exact .inr (.inr hle)

theorem Counted.room (h : l.Counted source events last) (hsecs : 0 < l.windowSecs) (hnow : last ≤ now)
    (hroom : (l.window source now).2 < l.per) :
    (l.allow source now).1.Counted source (events ++ [(now, (l.window source now).1)]) now := by
  obtain ⟨hstart, hend, hcnt, hfst, hold⟩ := h.window hsecs hnow
  rw [allow_of_room hroom]
  generalize hw : l.window source now = w
  obtain ⟨s, c⟩ := w
  rw [hw] at hroom hstart hend hcnt hfst hold
  dsimp only at hroom hstart hend hcnt hfst hold ⊢
  have hmem : ∀ e, e ∈ events ++ [(now, s)] ↔ e ∈ events ∨ e = (now, s) := by
    intro e
    rw [mem_append, mem_singleton]
  constructor
  · intro e he
    rcases (hmem e).1 he with he | rfl
    · exact h.inside e he
    · exact ⟨hstart, hend⟩
  · exact h.apart_snoc hold
  · intro t
    rw [countP_snoc]
    split_ifs with hs
    · rw [← hs, hcnt]
      exact hroom
    · exact h.share t
  · intro hper e he
    rcases (hmem e).1 he with he | rfl
    · exact h.first hper e he
    · exact (hfst hper (by dsimp only at hper; omega)).symm
  · intro hnone
    rw [get?_insert_self] at hnone
    cases hnone
  · intro w hget
    rw [get?_insert_self] at hget
    obtain rfl := Option.some.inj hget
    refine ⟨hstart, by rw [countP_snoc, if_pos rfl, hcnt], fun _ => Nat.succ_pos c, fun e he => ?_⟩
    rcases (hmem e).1 he with he | rfl
    · exact hold e he
    · exact .inl rfl

theorem Counted.full (h : l.Counted source events last) (hsecs : 0 < l.windowSecs) (hnow : last ≤ now)
    (hfull : l.per ≤ (l.window source now).2) :
    (l.allow source now).1.Counted source events now := by
  obtain ⟨hstart, hend, hcnt, hfst, hold⟩ := h.window hsecs hnow
  rw [allow_of_full hfull]
  refine ⟨h.inside, h.apart, h.share, h.first, fun hnone => ?_, fun w hget => ?_⟩
  · rw [get?_insert_self] at hnone
    cases hnone
  · rw [get?_insert_self] at hget
    obtain rfl := Option.some.inj hget
    exact ⟨hstart, hcnt, fun hpos => hpos.trans_le hfull, hold⟩

theorem Counted.run (h : l.Counted source events last) (hsecs : 0 < l.windowSecs) (calls : List (Text × ℕ))
    (hsrt : (last :: calls.map Prod.snd).Pairwise (· ≤ ·)) :
    ∃ (l' : Limiter) (last' : ℕ), l'.per = l.per ∧ l'.windowSecs = l.windowSecs ∧
      l'.Counted source (events ++ l.allowed source calls) last' := by
  induction calls generalizing l events last with
  | nil => exact ⟨l, last, rfl, rfl, by rwa [allowed, append_nil]⟩
  | cons call calls ih =>
    obtain ⟨caller, now⟩ := call
    obtain ⟨hlast, hrest⟩ := pairwise_cons.1 hsrt
    have hnow : last ≤ now := hlast now mem_cons_self
    obtain ⟨hper, hsame⟩ := l.allow_limits caller now
    have hstep : (l.allow caller now).1.Counted source
        (events ++ if caller = source ∧ (l.allow caller now).2 then [(now, (l.window caller now).1)] else [])
        now := by
      by_cases hclr : caller = source
      · subst hclr
        rcases l.allow_cases caller now with ⟨hroom, heq⟩ | ⟨hfull, heq⟩
        · rw [if_pos ⟨rfl, by rw [heq]⟩]
          exact h.room hsecs hnow hroom
        · rw [if_neg (fun hyes => by rw [heq] at hyes; cases hyes.2), append_nil]
          exact h.full hsecs hnow hfull
      · rw [if_neg (fun hyes => hclr hyes.1), append_nil]
        exact h.other hnow (Ne.symm hclr)
    obtain ⟨l', last', hper', hsecs', hcnt⟩ := ih hstep (by rwa [hsame]) hrest
    refine ⟨l', last', hper'.trans hper, hsecs'.trans hsame, ?_⟩
    rwa [allowed, ← append_assoc]

theorem counted_new (per windowSecs : ℕ) (source : Text) : (new per windowSecs).Counted source [] 0 := by
  refine ⟨nofun, nofun, fun s => ?_, fun _ => nofun, fun _ => nofun, nofun⟩
  rw [countP_nil]
  exact Nat.zero_le _

/-! ## Spans of a window's length -/

def BoundsWindows (per windowSecs : ℕ) : Prop :=
  ∀ (calls : List (Text × ℕ)) (source : Text) (t : ℕ), (calls.map Prod.snd).Pairwise (· ≤ ·) →
    (new per windowSecs).allowedIn calls source t ≤ per

/-- Events of a span that were all counted in one window. -/
theorem Counted.one_window (h : l.Counted source events last) {p : ℕ × ℕ → Bool}
    (hsame : ∀ e ∈ events, ∀ f ∈ events, p e = true → p f = true → e.2 = f.2) : events.countP p ≤ l.per := by
  rcases Nat.eq_zero_or_pos (events.countP p) with hnone | hsome
  · rw [hnone]
    exact Nat.zero_le _
  · obtain ⟨e, he, hpe⟩ := countP_pos_iff.1 hsome
    refine le_trans (countP_mono_left fun f hf hpf => ?_) (h.share e.2)
    simpa using hsame f hf e he hpf hpe

variable {per windowSecs : ℕ}

theorem bounds_windows (h : per ≤ 1 ∨ windowSecs ≤ 1) : BoundsWindows per windowSecs := by
  intro calls source t hsrt
  rw [allowedIn_eq]
  have hsecs : (new per windowSecs).windowSecs = windowSecs := rfl
  rw [hsecs]
  rcases Nat.eq_zero_or_pos windowSecs with hzero | hpos
  · rw [countP_eq_zero.2]
    · exact Nat.zero_le _
    · intro e _
      simp only [decide_eq_true_eq]
      omega
  obtain ⟨l', last', hper', hsecs', hcounted⟩ := (counted_new per windowSecs source).run hpos calls
    (pairwise_cons.2 ⟨fun _ _ => Nat.zero_le _, hsrt⟩)
  rw [nil_append] at hcounted
  have hper : l'.per = per := hper'
  have hlen : l'.windowSecs = windowSecs := hsecs'
  refine (hcounted.one_window fun e he f hf hpe hpf => ?_).trans_eq hper
  simp only [decide_eq_true_eq] at hpe hpf
  obtain ⟨hle, hlt⟩ := hcounted.inside e he
  obtain ⟨hle', hlt'⟩ := hcounted.inside f hf
  have hapart := hcounted.apart e he f hf
  rcases h with hone | hsec
  · have hsome : 0 < l'.per := by
      have hcnt : 0 < (allowed (new per windowSecs) source calls).countP (·.2 = e.2) :=
        countP_pos_iff.2 ⟨e, he, by simp⟩
      exact hcnt.trans_le (hcounted.share e.2)
    have hfst := hcounted.first (by omega)
    have he1 := hfst e he
    have hf1 := hfst f hf
    omega
  · omega

def single (per windowSecs : ℕ) (w : ℕ × ℕ) : Limiter :=
  ⟨per, windowSecs, (∅ : SortedMap Text (ℕ × ℕ)).insert [] w⟩

theorem new_allow (hper : 0 < per) (windowSecs now : ℕ) :
    (new per windowSecs).allow [] now = (single per windowSecs (now, 1), true) := by
  have hw : (new per windowSecs).window [] now = (now, 0) := window_eq _ _ _
  rcases (new per windowSecs).allow_cases [] now with ⟨-, heq⟩ | ⟨hfull, -⟩
  · rw [heq, hw]
    rfl
  · rw [hw] at hfull
    exact absurd hper (Nat.not_lt.2 hfull)

theorem single_allow {now : ℕ} {w v : ℕ × ℕ} (hv : (if windowSecs ≤ now - w.1 then (now, 0) else w) = v)
    (hroom : v.2 < per) :
    (single per windowSecs w).window [] now = v ∧
      (single per windowSecs w).allow [] now = (single per windowSecs (v.1, v.2 + 1), true) := by
  have hw : (single per windowSecs w).window [] now = v := (window_eq _ _ _).trans hv
  refine ⟨hw, ?_⟩
  rcases (single per windowSecs w).allow_cases [] now with ⟨-, heq⟩ | ⟨hfull, -⟩
  · rw [heq, hw]
    rfl
  · rw [hw] at hfull
    exact absurd hroom (Nat.not_lt.2 hfull)

theorem allowed_replicate {now : ℕ} (k : ℕ) {w : ℕ × ℕ} (hopen : now - w.1 < windowSecs) (hroom : w.2 + k ≤ per) :
    (single per windowSecs w).allowed [] (replicate k ([], now)) = replicate k (now, w.1) := by
  induction k generalizing w with
  | zero => rfl
  | succ k ih =>
    obtain ⟨hw, hallow⟩ := single_allow (if_neg (Nat.not_le.2 hopen)) (show w.2 < per by omega)
    have hrest := @ih (w.1, w.2 + 1) hopen (show w.2 + 1 + k ≤ per by omega)
    rw [replicate_succ, allowed, hallow, hw, hrest, if_pos ⟨rfl, rfl⟩]
    rfl

def straddle (per windowSecs : ℕ) : List (Text × ℕ) :=
  ([], 0) :: ([], windowSecs - 1) :: ([], windowSecs) :: List.replicate (per - 1) ([], windowSecs)

theorem allowed_straddle (hper : 1 < per) (hsecs : 1 < windowSecs) :
    (new per windowSecs).allowed [] (straddle per windowSecs) =
      (0, 0) :: (windowSecs - 1, 0) :: (windowSecs, windowSecs) ::
        replicate (per - 1) (windowSecs, windowSecs) := by
  obtain ⟨hw₁, h₁⟩ := @single_allow per windowSecs (windowSecs - 1) (0, 1) (0, 1) (if_neg (by omega)) (by omega)
  obtain ⟨hw₂, h₂⟩ := @single_allow per windowSecs windowSecs (0, 2) (windowSecs, 0) (if_pos (by omega)) (by omega)
  have hw₀ : (new per windowSecs).window [] 0 = (0, 0) := window_eq _ _ _
  rw [straddle, allowed, new_allow (by omega), hw₀, allowed, h₁, hw₁, allowed, h₂, hw₂,
    allowed_replicate _ (by dsimp only; omega) (by dsimp only; omega)]
  rfl

theorem not_bounds_windows (hper : 1 < per) (hsecs : 1 < windowSecs) :
    ¬ BoundsWindows per windowSecs := by
  intro h
  have hsrt : ((straddle per windowSecs).map Prod.snd).Pairwise (· ≤ ·) := by
    simp only [straddle, map_cons, map_replicate, pairwise_cons, mem_cons, mem_replicate,
      pairwise_replicate]
    refine ⟨fun _ _ => Nat.zero_le _, ?_, ?_, .inr le_rfl⟩
    · rintro a (rfl | ⟨-, rfl⟩) <;> omega
    · rintro a ⟨-, rfl⟩
      exact le_rfl
  have hbd := h (straddle per windowSecs) [] (windowSecs - 1) hsrt
  rw [allowedIn_eq, allowed_straddle hper hsecs] at hbd
  have hlen : (new per windowSecs).windowSecs = windowSecs := rfl
  simp only [hlen, countP_cons, countP_replicate, decide_eq_true_eq] at hbd
  rw [if_pos ⟨by omega, by omega⟩, if_pos ⟨by omega, by omega⟩, if_pos ⟨le_rfl, by omega⟩,
    if_neg (by omega)] at hbd
  omega

/-- The limiter bounds every span exactly if a window admits at most one event or lasts at most
one second. -/
theorem bounds_windows_iff (per windowSecs : ℕ) : BoundsWindows per windowSecs ↔ per ≤ 1 ∨ windowSecs ≤ 1 := by
  constructor
  · intro h
    by_contra hnot
    obtain ⟨hper, hsecs⟩ := not_or.1 hnot
    exact not_bounds_windows (Nat.not_le.1 hper) (Nat.not_le.1 hsecs) h
  · exact bounds_windows

/-- With two events a minute, three are allowed within one: at 59 s and twice at 60 s. -/
theorem three_in_a_minute :
    (new 2 60).answers [([], 0), ([], 59), ([], 60), ([], 60)] = [true, true, true, true] ∧
      (new 2 60).allowedIn [([], 0), ([], 59), ([], 60), ([], 60)] [] 59 = 3 ∧ ¬ BoundsWindows 2 60 := by
  refine ⟨by decide, by decide, fun h => ?_⟩
  have hbd := h [([], 0), ([], 59), ([], 60), ([], 60)] [] 59 (by decide)
  exact absurd hbd (by decide)

end ProxyNode.OAuth.Limiter
