import ProxyNode.Spec.MoveCallbacks

/-! A resolution is marked dispatched only after it was read for delivery, as long as none is
discarded between its read and its mark: rows are never overwritten, so a row that a dispatcher
has read is still the row it marks. A discard in between lets another resolution take its place,
which the mark, by move alone, then hits. -/

namespace ProxyNode

open Interleave List Option SortedMap

/-! ## The ledger -/

namespace CallbackLedger

variable {ledger : CallbackLedger}

def Holds (ledger : CallbackLedger) (owed : Text × OpId) : Prop :=
  ∃ dispatched, ledger.get? owed.1 = some ⟨owed.2, dispatched⟩

theorem undispatched_holds {moveId : Text} {resolution : OpId}
    (h : ledger.undispatchedMoveCallback moveId = some resolution) : ledger.Holds (moveId, resolution) := by
  obtain ⟨fire, hget, hfire⟩ := bind_eq_some_iff.1 h
  split_ifs at hfire
  obtain rfl := some.inj hfire
  exact ⟨_, hget⟩

theorem undispatcheds_hold {owed : Text × OpId} (h : owed ∈ ledger.undispatchedMoveCallbacks) :
    ledger.Holds owed := by
  obtain ⟨⟨moveId, fire⟩, hmem, hfire⟩ := mem_filterMap.1 h
  dsimp only at hfire
  split_ifs at hfire
  obtain rfl := some.inj hfire
  exact ⟨_, get?_eq_some.2 hmem⟩

/-- A record leaves the rows there are, and its own is not dispatched. -/
theorem get?_record (ledger : CallbackLedger) (moveId : Text) (resolution : OpId) (m : Text) :
    (ledger.recordMoveCallbackFire moveId resolution).1.get? m = ledger.get? m ∨
      ledger.get? m = none ∧
        (ledger.recordMoveCallbackFire moveId resolution).1.get? m = some ⟨resolution, false⟩ := by
  rw [recordMoveCallbackFire]
  split_ifs with hkn
  · exact .inl rfl
  · dsimp only
    rw [get?_insert]
    split_ifs with hm
    · subst hm
      rw [SortedMap.contains, not_isSome_iff_eq_none] at hkn
      exact .inr ⟨hkn, rfl⟩
    · exact .inl rfl

/-- A discard leaves every row but one that still holds the resolution, undispatched. -/
theorem get?_discard (ledger : CallbackLedger) (moveId : Text) (resolution : OpId) (m : Text) :
    (ledger.discardUndispatchedMoveCallback moveId resolution).get? m = ledger.get? m ∨
      m = moveId ∧ ledger.get? m = some ⟨resolution, false⟩ ∧
        (ledger.discardUndispatchedMoveCallback moveId resolution).get? m = none := by
  rw [discardUndispatchedMoveCallback]
  split_ifs with hsame
  · rw [get?_erase]
    split_ifs with hm
    · subst hm
      exact .inr ⟨rfl, hsame, rfl⟩
    · exact .inl rfl
  · exact .inl rfl

/-- A mark changes no resolution, and sets only the row of its move. -/
theorem get?_mark (ledger : CallbackLedger) (moveId m : Text) :
    (ledger.markMoveCallbackDispatched moveId).get? m = ledger.get? m ∨
      m = moveId ∧ ∃ fire, ledger.get? m = some fire ∧
        (ledger.markMoveCallbackDispatched moveId).get? m = some ⟨fire.resolutionOpId, true⟩ := by
  rw [markMoveCallbackDispatched]
  cases hget : ledger.get? moveId with
  | none => exact .inl rfl
  | some fire =>
    dsimp only
    rw [get?_insert]
    split_ifs with hm
    · subst hm
      exact .inr ⟨rfl, fire, hget, rfl⟩
    · exact .inl rfl

end CallbackLedger

namespace Callbacks

variable {ledger : CallbackLedger}

/-! ## One step -/

def pending : CallbackPoint → List (Text × OpId)
  | .start | .done => []
  | .deliver owed => owed
  | .mark delivered owed => delivered :: owed

/-- The event is a discard that takes away what a dispatcher has read and not yet marked. -/
def Undercuts (w : World) : Event → Prop
  | .call _ => False
  | .turn i =>
    match w.threads[i]? with
    | some ⟨.discard moveId resolution, .start⟩ =>
      w.shared.get? moveId = some ⟨resolution, false⟩ ∧ ∃ u ∈ w.threads, (moveId, resolution) ∈ pending u.point
    | _ => False

instance (w : World) : DecidablePred (Undercuts w) := fun e => by
  unfold Undercuts
  split
  · infer_instance
  · split <;> infer_instance

/-- None of the events is such a discard. -/
def NoneUndercutsFrom (w : World) : List Event → Prop
  | [] => True
  | e :: events => ¬ Undercuts w e ∧ NoneUndercutsFrom (w.next .start CallbackCall.step e) events

def NoneUndercuts (events : List Event) : Prop := NoneUndercutsFrom ⟨∅, []⟩ events

instance decidableNoneUndercutsFrom (w : World) : DecidablePred (NoneUndercutsFrom w)
  | [] => isTrue trivial
  | e :: events =>
    have := decidableNoneUndercutsFrom (w.next .start CallbackCall.step e) events
    inferInstanceAs (Decidable (_ ∧ _))

instance (events : List Event) : Decidable (NoneUndercuts events) := decidableNoneUndercutsFrom _ events

variable {call : CallbackCall} {owed : Text × OpId}

theorem reads_hold (h : owed ∈ call.reads ledger) :
    ledger.Holds owed := by
  cases call with
  | record | discard => cases h
  | dispatch moveId =>
    obtain ⟨resolution, hread, rfl⟩ := mem_map.1 h
    exact CallbackLedger.undispatched_holds (mem_toList.1 hread)
  | drain => exact CallbackLedger.undispatcheds_hold h

variable {point : CallbackPoint}

/-- What a step leaves pending was pending, or is read by it. -/
theorem pending_step (h : owed ∈ pending (call.step point ledger).2) :
    owed ∈ pending point ∨ point = .start ∧ owed ∈ call.reads ledger := by
  cases point with
  | start =>
    cases call with
    | record | discard => cases h
    | dispatch | drain => exact .inr ⟨rfl, h⟩
  | deliver rest =>
    cases rest with
    | nil => cases h
    | cons next rest => exact .inl h
  | mark delivered rest => exact .inl (mem_cons_of_mem _ h)
  | done => cases h

/-- A resolution keeps its row at every step but a discard of it. -/
theorem holds_step (h : ledger.Holds owed)
    (hkept : ¬ (call = .discard owed.1 owed.2 ∧ point = .start ∧ ledger.get? owed.1 = some ⟨owed.2, false⟩)) :
    (call.step point ledger).1.Holds owed := by
  obtain ⟨dispatched, hget⟩ := h
  cases point with
  | start =>
    cases call with
    | record moveId resolution =>
      rcases ledger.get?_record moveId resolution owed.1 with hsame | ⟨hnone, -⟩
      · exact ⟨dispatched, hsame.trans hget⟩
      · rw [hnone] at hget
        cases hget
    | discard moveId resolution =>
      rcases ledger.get?_discard moveId resolution owed.1 with hsame | ⟨rfl, hrow, -⟩
      · exact ⟨dispatched, hsame.trans hget⟩
      · have hres : resolution = owed.2 := congrArg CallbackFire.resolutionOpId
          (some.inj (hrow.symm.trans hget))
        subst hres
        exact absurd ⟨rfl, rfl, hrow⟩ hkept
    | dispatch | drain => exact ⟨dispatched, hget⟩
  | deliver rest =>
    cases rest with
    | nil | cons => exact ⟨dispatched, hget⟩
  | mark delivered rest =>
    rcases ledger.get?_mark delivered.1 owed.1 with hsame | ⟨-, fire, hfire, hmark⟩
    · exact ⟨dispatched, hsame.trans hget⟩
    · rw [hget] at hfire
      obtain rfl := some.inj hfire
      exact ⟨true, hmark⟩
  | done => exact ⟨dispatched, hget⟩

/-- A row that is dispatched after a step was so before, or is marked by it. -/
theorem dispatched_step {moveId : Text} {resolution : OpId}
    (h : (call.step point ledger).1.get? moveId = some ⟨resolution, true⟩) :
    ledger.get? moveId = some ⟨resolution, true⟩ ∨
      ledger.Holds (moveId, resolution) ∧ ∃ delivered rest, point = .mark delivered rest ∧
        delivered.1 = moveId := by
  cases point with
  | start =>
    cases call with
    | record m r =>
      rcases ledger.get?_record m r moveId with hsame | ⟨-, hnew⟩
      · exact .inl (hsame.symm.trans h)
      · cases hnew.symm.trans h
    | discard m r =>
      rcases ledger.get?_discard m r moveId with hsame | ⟨-, -, hgone⟩
      · exact .inl (hsame.symm.trans h)
      · cases hgone.symm.trans h
    | dispatch | drain => exact .inl h
  | deliver rest =>
    cases rest with
    | nil | cons => exact .inl h
  | mark delivered rest =>
    rcases ledger.get?_mark delivered.1 moveId with hsame | ⟨hmove, fire, hfire, hmark⟩
    · exact .inl (hsame.symm.trans h)
    · have hres : fire.resolutionOpId = resolution := congrArg CallbackFire.resolutionOpId
        (some.inj (hmark.symm.trans h))
      exact .inr ⟨⟨fire.dispatched, hres ▸ hfire⟩, delivered, rest, rfl, hmove.symm⟩
  | done => exact .inl h

/-! ## Runs -/

theorem run_concat (events : List Event) (e : Event) :
    run (events ++ [e]) = (run events).next .start CallbackCall.step e :=
  Interleave.run_concat events e

theorem readsFrom_concat (w : World) (events : List Event) (e : Event) :
    readsFrom w (events ++ [e]) =
      readsFrom w events ++ readsAt (w.run .start CallbackCall.step events) e := by
  induction events generalizing w with
  | nil => simp [readsFrom, World.run]
  | cons e' events ih =>
    rw [cons_append, readsFrom, ih, readsFrom, append_assoc]
    rfl

theorem readsOf_concat (events : List Event) (e : Event) :
    readsOf (events ++ [e]) = readsOf events ++ readsAt (run events) e :=
  readsFrom_concat _ events e

theorem pending_read (events : List Event) {i : ℕ} {t : Thread} (ht : (run events).threads[i]? = some t) :
    ∀ owed ∈ pending t.point, owed ∈ readsOf events := by
  refine run_history (fun events _ t => ∀ owed ∈ pending t.point, owed ∈ readsOf events) (fun i t h => ?_)
    (fun _ _ _ h => ?_) (fun events e i t h owed howed => ?_) (fun events i t ht h owed howed => ?_) events i t ht
  · simp at h
  · cases h
  · rw [readsOf_concat]
    exact mem_append_left _ (h owed howed)
  · rw [readsOf_concat]
    rcases pending_step howed with hbef | ⟨hstart, hread⟩
    · exact mem_append_left _ (h owed hbef)
    · refine mem_append_right _ ?_
      obtain ⟨call, point⟩ := t
      subst hstart
      have hat : readsAt (run events) (.turn i) = call.reads (run events).shared := by
        simp only [readsAt, run, ht]
      rw [hat]
      exact hread

theorem noneUndercutsFrom_concat {w : World} {events : List Event} {e : Event} :
    NoneUndercutsFrom w (events ++ [e]) ↔
      NoneUndercutsFrom w events ∧ ¬ Undercuts (w.run .start CallbackCall.step events) e := by
  induction events generalizing w with
  | nil => simp [NoneUndercutsFrom, World.run]
  | cons e' events ih =>
    rw [cons_append, NoneUndercutsFrom, ih, NoneUndercutsFrom, and_assoc]
    rfl

theorem noneUndercuts_concat {events : List Event} {e : Event} :
    NoneUndercuts (events ++ [e]) ↔ NoneUndercuts events ∧ ¬ Undercuts (run events) e :=
  noneUndercutsFrom_concat

theorem NoneUndercuts.of_append {before after : List Event} (h : NoneUndercuts (before ++ after)) :
    NoneUndercuts before := by
  induction after using reverseRecOn with
  | nil => rwa [append_nil] at h
  | append_singleton after e ih =>
    rw [← append_assoc] at h
    exact ih (noneUndercuts_concat.1 h).1

/-- Where nothing is undercut, what is pending still has its row. -/
theorem pending_holds (events : List Event) (h : NoneUndercuts events) :
    ∀ t ∈ (run events).threads, ∀ owed ∈ pending t.point, (run events).shared.Holds owed := by
  induction events using reverseRecOn with
  | nil => exact fun t ht => absurd ht not_mem_nil
  | append_singleton events e ih =>
    obtain ⟨h, hcut⟩ := noneUndercuts_concat.1 h
    have ih := ih h
    rw [run_concat]
    intro u hu owed howed
    obtain ⟨j, hu⟩ := mem_iff_getElem?.1 hu
    cases e with
    | call k =>
      rcases call_thread hu with hu | ⟨-, rfl⟩
      · exact ih u (mem_of_getElem? hu) owed howed
      · cases howed
    | turn i =>
      cases ht : (run events).threads[i]? with
      | none =>
        rw [next_turn_none ht] at hu ⊢
        exact ih u (mem_of_getElem? hu) owed howed
      | some t =>
        have hkept : ∀ v ∈ (run events).threads, owed ∈ pending v.point →
            ¬ (t.call = .discard owed.1 owed.2 ∧ t.point = .start ∧
              (run events).shared.get? owed.1 = some ⟨owed.2, false⟩) := by
          rintro v hv hpend ⟨hcall, hpt, hrow⟩
          apply hcut
          obtain rfl : t = ⟨.discard owed.1 owed.2, .start⟩ := by rw [← hcall, ← hpt]
          simp only [Undercuts, ht]
          exact ⟨hrow, v, hv, hpend⟩
        have hshared : ((run events).next .start CallbackCall.step (.turn i)).shared =
            (t.call.step t.point (run events).shared).1 := by rw [next_turn ht]
        rw [hshared]
        rcases turn_thread ht hu with ⟨-, rfl⟩ | ⟨-, hu⟩
        · rcases pending_step howed with hbef | ⟨hstart, hread⟩
          · have hmem := mem_of_getElem? ht
            exact holds_step (ih t hmem owed hbef) (hkept t hmem hbef)
          · -- a step that reads is not a discard
            refine holds_step (reads_hold hread) ?_
            rintro ⟨hcall, -, -⟩
            rw [hcall] at hread
            cases hread
        · have hmem := mem_of_getElem? hu
          exact holds_step (ih u hmem owed howed) (hkept u hmem howed)

/-- Where nothing is undercut, what is dispatched was read for delivery. -/
theorem dispatched_read (events : List Event) (h : NoneUndercuts events) {moveId : Text} {resolution : OpId}
    (hget : (run events).shared.get? moveId = some ⟨resolution, true⟩) :
    (moveId, resolution) ∈ readsOf events := by
  induction events using reverseRecOn with
  | nil => cases hget
  | append_singleton events e ih =>
    have hbef := (noneUndercuts_concat.1 h).1
    have ih := ih hbef
    rw [run_concat] at hget
    rw [readsOf_concat]
    refine mem_append_left _ ?_
    cases e with
    | call k => exact ih hget
    | turn i =>
      cases ht : (run events).threads[i]? with
      | none =>
        rw [next_turn_none ht] at hget
        exact ih hget
      | some t =>
        rw [next_turn ht] at hget
        rcases dispatched_step hget with hsame | ⟨⟨dispatched, hrow⟩, delivered, rest, hpt, rfl⟩
        · exact ih hsame
        · -- the row of the move is the one the dispatcher read
          have hpend : delivered ∈ pending t.point := by
            rw [hpt]
            exact mem_cons_self
          obtain ⟨dispatched', hrow'⟩ :=
            pending_holds events hbef t (mem_of_getElem? ht) delivered hpend
          have hres : resolution = delivered.2 := congrArg CallbackFire.resolutionOpId
            (some.inj (hrow.symm.trans hrow'))
          subst hres
          exact pending_read events ht delivered hpend

/-- In every run in which no discard takes away what a dispatcher has read and not yet marked,
a resolution that is dispatched in a state of the run was read for delivery before. -/
theorem dispatched_were_read (events : List Event) (h : NoneUndercuts events) :
    ∀ before after, events = before ++ after → ∀ moveId resolution,
      (run before).shared.get? moveId = some ⟨resolution, true⟩ → (moveId, resolution) ∈ readsOf before := by
  rintro before after rfl moveId resolution hget
  exact dispatched_read before h.of_append hget

/-! ## Runs on one move -/

def firstApproval : OpId := ⟨List.replicate 32 1, List.length_replicate⟩

def newerApproval : OpId := ⟨List.replicate 32 2, List.length_replicate⟩

/-- The first approval is discarded before a dispatcher reads the newer one. -/
def replacedBeforeRead : List Event :=
  [.call (.record ['m'] firstApproval), .turn 0, .call (.discard ['m'] firstApproval), .turn 1,
    .call (.record ['m'] newerApproval), .turn 2, .call (.dispatch ['m']), .turn 3, .turn 3, .turn 3]

theorem newer_approval_read :
    NoneUndercuts replacedBeforeRead ∧
    (run replacedBeforeRead).shared.get? ['m'] = some ⟨newerApproval, true⟩ ∧
    (['m'], newerApproval) ∈ readsOf replacedBeforeRead :=
  have hnone : NoneUndercuts replacedBeforeRead := by decide +kernel
  have hget : (run replacedBeforeRead).shared.get? ['m'] = some ⟨newerApproval, true⟩ := by decide +kernel
  ⟨hnone, hget, dispatched_were_read replacedBeforeRead hnone replacedBeforeRead [] (List.append_nil _).symm
    ['m'] newerApproval hget⟩

/-- The first approval is discarded while its dispatcher delivers it, and the newer one recorded
before that dispatcher marks the move. -/
def replacedWhileDelivered : List Event :=
  [.call (.record ['m'] firstApproval), .turn 0, .call (.dispatch ['m']), .turn 1, .turn 1,
    .call (.discard ['m'] firstApproval), .turn 2, .call (.record ['m'] newerApproval), .turn 3, .turn 1]

theorem newer_approval_swallowed :
    (run replacedWhileDelivered).shared.get? ['m'] = some ⟨newerApproval, true⟩ ∧
    (['m'], newerApproval) ∉ readsOf replacedWhileDelivered := by
  decide +kernel

end Callbacks

end ProxyNode
