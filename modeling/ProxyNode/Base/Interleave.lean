import Mathlib.Data.List.Induction
import Mathlib.Data.List.Pairwise
import Mathlib.Order.Basic

/-! Calls that take atomic steps on a shared state, in any order. A call is made with all it
will ever read besides the shared state, and stands at a point between two of its steps. -/

namespace Interleave

open List

/-- A call and where it stands. -/
structure Thread (κ π : Type*) where
  call : κ
  point : π

structure World (σ κ π : Type*) where
  shared : σ
  threads : List (Thread κ π)

inductive Event (κ : Type*)
  | call (call : κ)
  | turn (i : ℕ)

variable {σ κ π : Type*}

def World.calls (w : World σ κ π) : List κ := w.threads.map Thread.call

section Run

variable (start : π) (step : κ → π → σ → σ × π)

def World.next (w : World σ κ π) : Event κ → World σ κ π
  | .call k => ⟨w.shared, w.threads ++ [⟨k, start⟩]⟩
  | .turn i =>
    match w.threads[i]? with
    | none => w
    | some t =>
      let (shared, point) := step t.call t.point w.shared
      ⟨shared, w.threads.set i ⟨t.call, point⟩⟩

def World.run (w : World σ κ π) (events : List (Event κ)) : World σ κ π := events.foldl (World.next start step) w

variable {start step} {w : World σ κ π}

theorem run_concat (events : List (Event κ)) (e : Event κ) :
    w.run start step (events ++ [e]) = (w.run start step events).next start step e := by
  rw [World.run, World.run, foldl_append, foldl_cons, foldl_nil]

theorem run_append (before after : List (Event κ)) :
    w.run start step (before ++ after) = (w.run start step before).run start step after :=
  foldl_append

variable {i : ℕ} {t : Thread κ π}

/-- A turn of a thread: the other threads stay where they are. -/
theorem next_turn (h : w.threads[i]? = some t) :
    w.next start step (.turn i) =
      ⟨(step t.call t.point w.shared).1, w.threads.set i ⟨t.call, (step t.call t.point w.shared).2⟩⟩ := by
  simp only [World.next, h]

theorem next_turn_none (h : w.threads[i]? = none) : w.next start step (.turn i) = w := by
  simp only [World.next, h]

theorem calls_turn (i : ℕ) : (w.next start step (.turn i)).calls = w.calls := by
  cases h : w.threads[i]? with
  | none => rw [next_turn_none h]
  | some t =>
    obtain ⟨hi, rfl⟩ := List.getElem?_eq_some_iff.1 h
    rw [next_turn h, World.calls, World.calls, map_set, ← getElem_map Thread.call, set_getElem_self]
    rwa [length_map]

theorem calls_call (k : κ) : (w.next start step (.call k)).calls = w.calls ++ [k] := by
  rw [World.next, World.calls, World.calls, map_append]
  rfl

theorem calls_next (e : Event κ) : w.calls <+: (w.next start step e).calls := by
  cases e with
  | call k =>
    rw [calls_call]
    exact prefix_append _ _
  | turn i => exact ⟨[], by rw [append_nil, calls_turn]⟩

theorem calls_run (events : List (Event κ)) : w.calls <+: (w.run start step events).calls := by
  induction events using reverseRecOn with
  | nil => exact prefix_refl _
  | append_singleton events e ih =>
    rw [run_concat]
    exact ih.trans (calls_next e)

theorem call_thread {k : κ} {j : ℕ} {u : Thread κ π} (h : (w.next start step (.call k)).threads[j]? = some u) :
    w.threads[j]? = some u ∨ j = w.threads.length ∧ u = ⟨k, start⟩ := by
  rw [World.next, getElem?_append] at h
  split_ifs at h with hj
  · exact Or.inl h
  · obtain ⟨hlt, -⟩ := List.getElem?_eq_some_iff.1 h
    rw [length_singleton] at hlt
    exact Or.inr ⟨by omega, mem_singleton.1 (mem_of_getElem? h)⟩

theorem turn_thread {j : ℕ} {u : Thread κ π} (ht : w.threads[i]? = some t)
    (h : (w.next start step (.turn i)).threads[j]? = some u) :
    j = i ∧ u = ⟨t.call, (step t.call t.point w.shared).2⟩ ∨ j ≠ i ∧ w.threads[j]? = some u := by
  rw [next_turn ht] at h
  by_cases hj : i = j
  · subst hj
    rw [getElem?_set_self (List.getElem?_eq_some_iff.1 ht).1] at h
    exact Or.inl ⟨rfl, (Option.some.inj h).symm⟩
  · rw [getElem?_set_ne hj] at h
    exact Or.inr ⟨fun hji => hj hji.symm, h⟩

/-- A thread whose call has nothing more to do stays as it is. -/
theorem next_final (ht : w.threads[i]? = some t) (hfin : ∀ s, (step t.call t.point s).2 = t.point)
    (e : Event κ) :
    (w.next start step e).threads[i]? = some t := by
  cases e with
  | call k =>
    rw [World.next, getElem?_append_left (List.getElem?_eq_some_iff.1 ht).1]
    exact ht
  | turn j =>
    cases hu : w.threads[j]? with
    | none => rwa [next_turn_none hu]
    | some u =>
      rw [next_turn hu]
      by_cases hj : j = i
      · subst hj
        obtain rfl := Option.some.inj (ht.symm.trans hu)
        rw [getElem?_set_self (List.getElem?_eq_some_iff.1 ht).1, hfin]
      · rwa [getElem?_set_ne hj]

/-- What holds of each thread with the events so far: of a new one, with any further event,
and with a turn of its own. -/
theorem run_history (P : List (Event κ) → ℕ → Thread κ π → Prop)
    (hnil : ∀ (i : ℕ) t, w.threads[i]? = some t → P [] i t)
    (hcall : ∀ events k, P (events ++ [.call k]) (w.run start step events).threads.length ⟨k, start⟩)
    (hmore : ∀ events e i t, P events i t → P (events ++ [e]) i t)
    (hstep : ∀ events i t, (w.run start step events).threads[i]? = some t → P events i t →
      P (events ++ [.turn i]) i ⟨t.call, (step t.call t.point (w.run start step events).shared).2⟩)
    (events : List (Event κ)) : ∀ (i : ℕ) t, (w.run start step events).threads[i]? = some t → P events i t := by
  induction events using reverseRecOn with
  | nil => exact hnil
  | append_singleton events e ih =>
    rw [run_concat]
    intro j u hu
    cases e with
    | call k =>
      rcases call_thread hu with hu | ⟨rfl, rfl⟩
      · exact hmore events _ j u (ih j u hu)
      · exact hcall events k
    | turn i =>
      cases ht : (w.run start step events).threads[i]? with
      | none =>
        rw [next_turn_none ht] at hu
        exact hmore events _ j u (ih j u hu)
      | some t =>
        rcases turn_thread ht hu with ⟨rfl, rfl⟩ | ⟨-, hu⟩
        · exact hstep events j t ht (ih j t ht)
        · exact hmore events _ j u (ih j u hu)

/-- An invariant of single events, for runs whose calls are different from each other. -/
theorem run_keeps (Different : κ → κ → Prop) (Inv : World σ κ π → Prop)
    (hnext : ∀ v e, Inv v → (v.next start step e).calls.Pairwise Different → Inv (v.next start step e)) (h : Inv w)
    {events : List (Event κ)} (hcalls : (w.run start step events).calls.Pairwise Different) :
    Inv (w.run start step events) := by
  induction events using reverseRecOn with
  | nil => exact h
  | append_singleton events e ih =>
    rw [run_concat] at hcalls ⊢
    exact hnext _ e (ih (hcalls.sublist (calls_next e).sublist)) hcalls

end Run

/-! ## Shared and local assertions -/

/-- An assertion about the shared state, one about each thread, and one about any two
threads. All may speak of the calls made so far. -/
structure Assertions (σ κ π : Type*) where
  shared : List κ → σ → Prop
  thread : List κ → σ → Thread κ π → Prop
  pair : Thread κ π → Thread κ π → Prop

structure Assertions.Hold (A : Assertions σ κ π) (w : World σ κ π) : Prop where
  shared : A.shared w.calls w.shared
  thread : ∀ (i : ℕ) t, w.threads[i]? = some t → A.thread w.calls w.shared t
  pair : ∀ (i j : ℕ) t u, w.threads[i]? = some t → w.threads[j]? = some u → i ≠ j → A.pair t u

/-- What has to be shown of a call and of a step: the step keeps its own thread's assertion
and does not interfere with another's. -/
structure Assertions.Stable (start : π) (step : κ → π → σ → σ × π) (Different : κ → κ → Prop)
    (A : Assertions σ κ π) : Prop where
  symm : ∀ t u, A.pair t u → A.pair u t
  more : ∀ calls k s, A.shared calls s → A.shared (calls ++ [k]) s
  moreThread : ∀ calls k s t, A.thread calls s t → A.thread (calls ++ [k]) s t
  called : ∀ calls k s, A.shared calls s → (∀ c ∈ calls, Different c k) → A.thread (calls ++ [k]) s ⟨k, start⟩
  calledPair : ∀ t k, A.pair t ⟨k, start⟩
  own : ∀ calls s t, t.call ∈ calls → calls.Pairwise Different → A.shared calls s → A.thread calls s t →
    A.shared calls (step t.call t.point s).1 ∧
      A.thread calls (step t.call t.point s).1 ⟨t.call, (step t.call t.point s).2⟩
  other : ∀ calls s t u, Different t.call u.call ∨ Different u.call t.call → A.shared calls s →
    A.thread calls s t → A.thread calls s u → A.thread calls (step t.call t.point s).1 u
  otherPair : ∀ calls s t u, A.shared calls s → A.thread calls s t → A.thread calls s u → A.pair t u →
    A.pair ⟨t.call, (step t.call t.point s).2⟩ u

variable {start : π} {step : κ → π → σ → σ × π} {Different : κ → κ → Prop} {A : Assertions σ κ π} {w : World σ κ π}

theorem Assertions.Hold.call (h : A.Hold w) (hA : A.Stable start step Different) {k : κ}
    (hcalls : (w.calls ++ [k]).Pairwise Different) : A.Hold (w.next start step (.call k)) := by
  have hnew : ∀ c ∈ w.calls, Different c k := fun c hc =>
    (pairwise_append.1 hcalls).2.2 c hc k (mem_singleton.2 rfl)
  refine ⟨?_, fun i t ht => ?_, fun i j t u ht hu hij => ?_⟩
  · rw [calls_call]
    exact hA.more _ _ _ h.shared
  · rw [calls_call]
    rcases call_thread ht with ht | ⟨-, rfl⟩
    · exact hA.moreThread _ _ _ _ (h.thread i t ht)
    · exact hA.called _ _ _ h.shared hnew
  · rcases call_thread ht with ht | ⟨rfl, rfl⟩ <;> rcases call_thread hu with hu | ⟨rfl, rfl⟩
    · exact h.pair i j t u ht hu hij
    · exact hA.calledPair _ _
    · exact hA.symm _ _ (hA.calledPair _ _)
    · -- there is only one new thread
      exact absurd rfl hij

theorem different_calls (hcalls : w.calls.Pairwise Different) {i j : ℕ} {t u : Thread κ π}
    (ht : w.threads[i]? = some t) (hu : w.threads[j]? = some u) (hij : i ≠ j) :
    Different t.call u.call ∨ Different u.call t.call := by
  have hget : ∀ {i : ℕ} {t : Thread κ π}, w.threads[i]? = some t → ∃ hi : i < w.calls.length,
    w.calls[i] = t.call := by
    intro i t ht
    refine List.getElem?_eq_some_iff.1 ?_
    rw [World.calls, getElem?_map, ht]
    rfl
  obtain ⟨hi, hti⟩ := hget ht
  obtain ⟨hj, huj⟩ := hget hu
  rw [← hti, ← huj]
  rcases Nat.lt_or_gt_of_ne hij with hlt | hlt
  · exact Or.inl (pairwise_iff_getElem.1 hcalls i j hi hj hlt)
  · exact Or.inr (pairwise_iff_getElem.1 hcalls j i hj hi hlt)

theorem Assertions.Hold.turn (h : A.Hold w) (hA : A.Stable start step Different)
    (hcalls : w.calls.Pairwise Different) (i : ℕ) : A.Hold (w.next start step (.turn i)) := by
  cases ht : w.threads[i]? with
  | none => rwa [next_turn_none ht]
  | some t =>
    have hmem : t.call ∈ w.calls := mem_map_of_mem (mem_of_getElem? ht)
    obtain ⟨hshared, hown⟩ := hA.own _ _ t hmem hcalls h.shared (h.thread i t ht)
    have hcalls' : (w.next start step (.turn i)).calls = w.calls := calls_turn i
    have hshared' : (w.next start step (.turn i)).shared = (step t.call t.point w.shared).1 := by rw [next_turn ht]
    refine ⟨by rwa [hcalls', hshared'], fun j u hu => ?_, fun j k u v hu hv hjk => ?_⟩
    · rw [hcalls', hshared']
      rcases turn_thread ht hu with ⟨-, rfl⟩ | ⟨hj, hu⟩
      · exact hown
      · exact hA.other _ _ t u (different_calls hcalls ht hu hj.symm) h.shared (h.thread i t ht) (h.thread j u hu)
    · rcases turn_thread ht hu with ⟨rfl, rfl⟩ | ⟨hj, hu'⟩
      · rcases turn_thread ht hv with ⟨rfl, rfl⟩ | ⟨hk, hv'⟩
        · exact absurd rfl hjk
        · exact hA.otherPair _ _ t v h.shared (h.thread _ t ht) (h.thread _ v hv') (h.pair _ _ t v ht hv' hk.symm)
      · rcases turn_thread ht hv with ⟨rfl, rfl⟩ | ⟨hk, hv'⟩
        · exact hA.symm _ _
            (hA.otherPair _ _ t u h.shared (h.thread _ t ht) (h.thread _ u hu') (h.pair _ _ t u ht hu' hj.symm))
        · exact h.pair j k u v hu' hv' hjk

/-- Assertions that no step interferes with hold in every state of every run. -/
theorem Assertions.Hold.run (h : A.Hold w) (hA : A.Stable start step Different) {events : List (Event κ)}
    (hcalls : (w.run start step events).calls.Pairwise Different) : A.Hold (w.run start step events) := by
  refine run_keeps Different A.Hold (fun v e hv hdiff => ?_) h hcalls
  cases e with
  | call k =>
    rw [calls_call] at hdiff
    exact hv.call hA hdiff
  | turn i =>
    rw [calls_turn] at hdiff
    exact hv.turn hA hdiff i

end Interleave
