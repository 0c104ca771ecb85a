import ProxyNode.Sanity.Arrivals
import ProxyNode.Spec.Kv
import ProxyNode.Spec.Watch

/-! Waits on the relay stream are woken. A parked wait has read the log behind the version it
noted, so if the log has passed it, the round that grew the log has still to publish or has
raised the version since. That needs every round that grew the log to publish, which a round that
fails behind ops it appended does not. -/

namespace ProxyNode

open Wire List Option

variable {H : Host}

/-! ## What a round appends -/

namespace Node

/-- The node behind an entry of a page that passes every check: its signer is known, the
signature and the clock are good, and the op is in the log or can be written. -/
def accept (writes : ℕ → WriteOutcome) (node : Node H) (entry : RelayOp) : Option (Node H) :=
  match node.daemon.registry.keyFor entry.op.body.device with
  | none => none
  | some verifying =>
    match entry.op.verify H.crypto verifying with
    | .error _ => none
    | .ok () =>
      match H.clockUpdate node.daemon.clock entry.op.body.hlc entry.op.body.device with
      | .error _ => none
      | .ok clock =>
        if node.daemon.log.contains entry.op.id then some (node.after [.clock clock])
        else
          let write := node.writerAppend entry.op (writes entry.seq)
          match write.2 with
          | some _ => none
          | none => some (node.after (.clock clock :: write.1 ++ [.append entry.op]))

/-- A round that publishes whatever it appends: the whole page passes, the file is synced and
the store takes the log; or nothing in front of the first entry refused is new. -/
def CleanRound (node : Node H) (page : RelayPage) (faults : PullFaults) : Prop :=
  page.reset = true ∨
  (∃ node', page.entries.foldlM (accept faults.writes) node = some node' ∧ faults.fsync = true ∧
    (H.store.replay node'.daemon.log node'.daemon.store).2 = none) ∨
  ∀ k node', (page.entries.take k).foldlM (accept faults.writes) node = some node' →
    ∀ entry ∈ page.entries.take k, node.daemon.log.contains entry.op.id = true

def streamLength (node : Node H) : ℕ := node.daemon.log.relayOrder.length

theorem writerAppend_log (node : Node H) (op : SignedOp) (outcome : WriteOutcome) :
    (node.after (node.writerAppend op outcome).1).daemon.log = node.daemon.log := by
  obtain ⟨poisoned, hdmn⟩ := node.writerAppend_daemon op outcome
  rw [hdmn]

/-- One entry in the loop: refused, with the log as it was; known; or appended. -/
theorem relayLoop_cons (writes : ℕ → WriteOutcome) (entry : RelayOp) (entries : List RelayOp) (node : Node H)
    (after : ℕ) :
    (node.accept writes entry = none ∧ ∃ effects e,
      relayLoop writes (entry :: entries) node after = ⟨effects, after, 0, 0, some e⟩ ∧
        (node.after effects).daemon.log = node.daemon.log) ∨
    ∃ node' effects n, node.accept writes entry = some node' ∧ node.after effects = node' ∧
      relayLoop writes (entry :: entries) node after =
        ⟨effects ++ (relayLoop writes entries node' entry.seq).effects,
          (relayLoop writes entries node' entry.seq).after,
          (relayLoop writes entries node' entry.seq).received + 1,
          (relayLoop writes entries node' entry.seq).appended + n,
          (relayLoop writes entries node' entry.seq).abort⟩ ∧
      node'.streamLength = node.streamLength + n ∧
      (node.daemon.log.contains entry.op.id = true → node'.daemon.log = node.daemon.log) := by
  obtain ⟨seq, op⟩ := entry
  simp only [relayLoop, accept]
  cases hkey : node.daemon.registry.keyFor op.body.device with
  | none => exact .inl ⟨rfl, _, _, rfl, rfl⟩
  | some verifying =>
    dsimp only
    cases hver : op.verify H.crypto verifying with
    | error e => exact .inl ⟨rfl, _, _, rfl, rfl⟩
    | ok u =>
      dsimp only
      cases hclk : H.clockUpdate node.daemon.clock op.body.hlc op.body.device with
      | error e => exact .inl ⟨rfl, _, _, rfl, rfl⟩
      | ok clock =>
        dsimp only
        split_ifs with hin
        · exact .inr ⟨_, [.clock clock], 0, rfl, rfl, rfl, rfl, fun _ => rfl⟩
        · cases hwrite : (node.writerAppend op (writes seq)).2 with
          | some e =>
            refine .inl ⟨rfl, _, _, rfl, ?_⟩
            exact writerAppend_log (node.after [.clock clock]) op (writes seq)
          | none =>
            refine .inr ⟨_, .clock clock :: (node.writerAppend op (writes seq)).1 ++ [.append op], 1,
              rfl, rfl, rfl,
              ?_, fun h => absurd h hin⟩
            have hlog : (node.after (.clock clock :: (node.writerAppend op (writes seq)).1)).daemon.log =
                node.daemon.log := writerAppend_log (node.after [.clock clock]) op (writes seq)
            rw [Bool.not_eq_true] at hin
            rw [after_append, streamLength, streamLength]
            change ((node.after (.clock clock :: (node.writerAppend op (writes seq)).1)).daemon.log.append
              op).1.relayOrder.length = _
            rw [hlog, ← OpLog.length_arrivals, OpLog.arrivals_append_new hin, length_append,
              length_singleton, OpLog.length_arrivals]

theorem relayLoop_grows (writes : ℕ → WriteOutcome) (entries : List RelayOp) (node : Node H) (after : ℕ) :
    (node.after (relayLoop writes entries node after).effects).streamLength =
      node.streamLength + (relayLoop writes entries node after).appended := by
  induction entries generalizing node after with
  | nil => rfl
  | cons entry entries ih =>
    rcases relayLoop_cons writes entry entries node after with
      ⟨-, effects, e, heq, hlog⟩ | ⟨node', effects, n, -, rfl, heq, hlen, -⟩
    · rw [heq, streamLength, hlog]
      rfl
    · rw [heq]
      dsimp only
      rw [after_append, ih, hlen]
      omega

variable {node : Node H}

variable {writes : ℕ → WriteOutcome}

theorem relayLoop_passes {entries : List RelayOp} {node' : Node H}
    (h : entries.foldlM (accept writes) node = some node') (after : ℕ) :
    (relayLoop writes entries node after).abort = none ∧
      node.after (relayLoop writes entries node after).effects = node' := by
  induction entries generalizing node after with
  | nil => exact ⟨rfl, some.inj h⟩
  | cons entry entries ih =>
    rw [foldlM_cons] at h
    obtain ⟨next, haccept, hrest⟩ := bind_eq_some_iff.1 h
    rcases relayLoop_cons writes entry entries node after with ⟨hnone, -⟩ | ⟨m, effects, n, hsome, rfl, heq, -⟩
    · cases hnone.symm.trans haccept
    · obtain rfl := some.inj (hsome.symm.trans haccept)
      rw [heq]
      dsimp only
      rw [after_append]
      exact ih hrest _

/-- Without new ops in front of the first entry refused, the log stays. -/
theorem relayLoop_known {entries : List RelayOp} {after : ℕ}
    (h : ∀ k node', (entries.take k).foldlM (accept writes) node = some node' →
      ∀ entry ∈ entries.take k, node.daemon.log.contains entry.op.id = true) :
    (node.after (relayLoop writes entries node after).effects).daemon.log = node.daemon.log := by
  induction entries generalizing node after with
  | nil => rfl
  | cons entry entries ih =>
    rcases relayLoop_cons writes entry entries node after with
      ⟨-, effects, e, heq, hlog⟩ | ⟨m, effects, n, haccept, rfl, heq, -, hsame⟩
    · rw [heq]
      exact hlog
    · have hkn : node.daemon.log.contains entry.op.id = true := by
        refine h 1 (node.after effects) ?_ entry ?_
        · rw [take_succ_cons, take_zero, foldlM_cons, haccept]
          rfl
        · exact mem_cons_self
      have hsame := hsame hkn
      rw [heq]
      dsimp only
      rw [after_append]
      refine (ih fun k node' hk e he => ?_).trans hsame
      rw [hsame]
      refine h (k + 1) node' ?_ e ?_
      · rw [take_succ_cons, foldlM_cons, haccept]
        exact hk
      · rw [take_succ_cons]
        exact mem_cons_of_mem _ he

/-- The effects of a round behind its loop leave the log. -/
theorem syncRelayOnce_log (node : Node H) (index : ℕ) (cursor : RelayCursor) (page : RelayPage)
    (faults : PullFaults) (hrst : page.reset = false) :
    (node.after (node.syncRelayOnce index cursor page faults).effects).daemon.log =
      (node.after (relayLoop faults.writes page.entries node cursor.after).effects).daemon.log := by
  rw [syncRelayOnce, if_neg (by rw [hrst]; exact nofun)]
  dsimp only
  split_ifs
  · rw [after_append]
    rfl
  · split
    · rw [after_append]
      rfl
    · rw [after_append]
      rfl
  · rfl

theorem pullRelay_log (node : Node H) {index : ℕ} {link : Link} (hlink : node.daemon.links[index]? = some link)
    (page : RelayPage) (faults : PullFaults) :
    (node.after (node.pullRelay index page faults)).daemon.log =
      (node.after (node.syncRelayOnce index link.relayCursor page faults).effects).daemon.log := by
  rw [pullRelay, hlink]
  dsimp only
  split
  · rfl
  · split_ifs
    · rfl
    · rw [after_append]
      cases faults.save <;> rfl

theorem CleanRound.publishes {page : RelayPage} {faults : PullFaults} (h : node.CleanRound page faults)
    (index : ℕ) (cursor : RelayCursor)
    (hgrew : node.streamLength < (node.after (node.syncRelayOnce index cursor page faults).effects).streamLength) :
    ∃ outcome, (node.syncRelayOnce index cursor page faults).result = .ok outcome ∧ 0 < outcome.appended := by
  cases hrst : page.reset with
  | true =>
    rw [syncRelayOnce, if_pos hrst] at hgrew
    exact absurd hgrew (lt_irrefl _)
  | false =>
    have hlog := node.syncRelayOnce_log index cursor page faults hrst
    rw [streamLength, streamLength, hlog] at hgrew
    rcases h with htrue | ⟨node', hpass, hsync, hrep⟩ | hkn
    · cases htrue.symm.trans hrst
    · have hcnt := relayLoop_grows faults.writes page.entries node cursor.after
      obtain ⟨habort, hnode⟩ := relayLoop_passes hpass cursor.after
      have happended : 0 < (relayLoop faults.writes page.entries node cursor.after).appended := by
        rw [streamLength, streamLength] at hcnt
        omega
      refine ⟨⟨(relayLoop faults.writes page.entries node cursor.after).received, _, false⟩, ?_, happended⟩
      rw [syncRelayOnce, if_neg (by rw [hrst]; exact nofun)]
      dsimp only
      rw [habort, hnode, hrep, if_neg (not_not.2 hsync)]
      split_ifs <;> rfl
    · rw [relayLoop_known hkn] at hgrew
      exact absurd hgrew (lt_irrefl _)

end Node

/-! ## Waits and rounds -/

namespace WatchWorld

variable {w : WatchWorld H}

/-- A pull of the run, where it takes place, is a clean round. -/
def CleanAt (w : WatchWorld H) : WatchEvent → Prop
  | .pull index page faults =>
    w.result = none → w.node.daemon.links[index]?.isSome = true → w.node.CleanRound page faults
  | _ => True

def CleanFrom (w : WatchWorld H) : List WatchEvent → Prop
  | [] => True
  | e :: events => w.CleanAt e ∧ (w.step e).CleanFrom events

theorem CleanFrom.left {first rest : List WatchEvent} (h : w.CleanFrom (first ++ rest)) : w.CleanFrom first := by
  induction first generalizing w with
  | nil => trivial
  | cons e first ih => exact ⟨h.1, ih h.2⟩

theorem run_append (w : WatchWorld H) (a b : List WatchEvent) : w.run (a ++ b) = (w.run a).run b :=
  foldl_append

/-- What an event does to the wait at `i`. -/
def next (w : WatchWorld H) (i : ℕ) (t : Watcher) : WatchEvent → Watcher
  | .turn j => if j = i then t.turn w.log w.version else t
  | .expire j => if j = i then { t with expired := true } else t
  | .wakeLate j => if j = i then t.wakeLate w.log else t
  | .pull .. | .publish | .watch .. => t

variable {i : ℕ} {t : Watcher}

theorem getElem?_modify_some {l : List Watcher} (h : l[i]? = some t) (j : ℕ) (f : Watcher → Watcher) :
    (l.modify j f)[i]? = some (if j = i then f t else t) := by
  rw [getElem?_modify, h]
  split_ifs <;> rfl

theorem watcher_step (h : w.watchers[i]? = some t) (e : WatchEvent) :
    (w.step e).watchers[i]? = some (w.next i t e) := by
  cases e with
  | pull index page faults =>
    simp only [step, next]
    split <;> exact h
  | publish => exact h
  | watch epoch after =>
    rw [step, next, getElem?_append_left (List.getElem?_eq_some_iff.1 h).1]
    exact h
  | turn j | expire j | wakeLate j => exact getElem?_modify_some h j _

theorem watcher_cases {u : Watcher} {e : WatchEvent} (h : (w.step e).watchers[i]? = some u) :
    (∃ t, w.watchers[i]? = some t ∧ u = w.next i t e) ∨ u.point = .looking := by
  cases ht : w.watchers[i]? with
  | some t =>
    rw [watcher_step ht] at h
    exact .inl ⟨t, rfl, (some.inj h).symm⟩
  | none =>
    have hlen := getElem?_eq_none_iff.1 ht
    cases e with
    | pull index page faults =>
      simp only [step] at h
      split at h <;> cases ht.symm.trans h
    | publish => cases ht.symm.trans h
    | watch epoch after =>
      rw [step, getElem?_append_right hlen] at h
      obtain rfl := mem_singleton.1 (mem_of_getElem? h)
      exact .inr rfl
    | turn j | expire j | wakeLate j =>
      rw [step, getElem?_modify, ht] at h
      cases h

theorem version_le_step (w : WatchWorld H) (e : WatchEvent) : w.version ≤ (w.step e).version := by
  cases e with
  | pull index page faults =>
    simp only [step]
    split <;> exact le_rfl
  | publish =>
    simp only [step]
    split_ifs <;> omega
  | watch | turn | expire | wakeLate => exact le_rfl

/-- A pull that takes place: its log and its result are those of the round. -/
theorem pull_cases (w : WatchWorld H) (index : ℕ) (page : RelayPage) (faults : PullFaults) :
    w.step (.pull index page faults) = w ∨
    w.result = none ∧ ∃ link, w.node.daemon.links[index]? = some link ∧
      (w.step (.pull index page faults)).log =
        (w.node.after (w.node.syncRelayOnce index link.relayCursor page faults).effects).daemon.log ∧
      (w.step (.pull index page faults)).result =
        some (w.node.syncRelayOnce index link.relayCursor page faults).result ∧
      (w.step (.pull index page faults)).version = w.version := by
  simp only [step]
  split
  · rename_i link hres hlink
    exact .inr ⟨hres, link, hlink, w.node.pullRelay_log hlink page faults, rfl, rfl⟩
  · exact .inl rfl

def head (w : WatchWorld H) : ℕ := w.log.relayOrder.length

theorem head_step (w : WatchWorld H) (e : WatchEvent) : w.head ≤ (w.step e).head := by
  cases e with
  | pull index page faults =>
    rcases w.pull_cases index page faults with heq | ⟨-, link, -, hlog, -, -⟩
    · rw [heq]
    · rw [head, head, hlog]
      cases hrst : page.reset with
      | true =>
        rw [Node.syncRelayOnce, if_pos hrst]
        exact le_rfl
      | false =>
        rw [Node.syncRelayOnce_log _ _ _ _ _ hrst]
        have hgrows := Node.relayLoop_grows faults.writes page.entries w.node link.relayCursor.after
        rw [Node.streamLength, Node.streamLength] at hgrows
        rw [hgrows]
        exact Nat.le_add_right _ _
  | publish | watch | turn | expire | wakeLate => exact le_rfl

theorem head_isSome {log : OpLog} (h : 0 < log.relayOrder.length) : log.head.isSome = true := by
  cases hhead : log.head with
  | some key => rfl
  | none =>
    have hkeys : log.ops.keys = [] := getLast?_eq_none_iff.1 hhead
    obtain ⟨key, hkey⟩ := exists_mem_of_length_pos h
    have hmem := (log.arrived key).2 hkey
    rw [hkeys] at hmem
    exact absurd hmem not_mem_nil

/-- A wait that cannot miss a wake-up: it noted a version of the past, and if it is parked at the
present one with the log ahead of it, a publish is due. -/
def Safe (w : WatchWorld H) (t : Watcher) : Prop :=
  match t.point with
  | .looking | .returned _ => True
  | .checking seen => seen ≤ w.version
  | .parked seen => seen ≤ w.version ∧ (seen = w.version → t.after < w.head → w.publishes = true)

theorem Safe.of_point {u : Watcher} (h : w.Safe t) (hpt : u.point = t.point) (haft : u.after = t.after) :
    w.Safe u := by
  rwa [Safe, hpt, haft]

/-- A turn of a wait: it parks only at a log that is not ahead of it. -/
theorem Safe.turn (h : w.Safe t) : w.Safe (t.turn w.log w.version) := by
  obtain ⟨epoch, after, expired, point⟩ := t
  cases point with
  | looking => exact le_refl w.version
  | checking seen =>
    simp only [Watcher.turn]
    split_ifs with hback
    · trivial
    · refine ⟨h, fun _ hahead => absurd ?_ hback⟩
      have hhead : w.log.relayState.head > after := hahead
      simp only [Watcher.changed, decide_eq_true hhead, Bool.or_true, Bool.true_or]
  | parked seen =>
    simp only [Watcher.turn]
    split_ifs with hnew
    · trivial
    · exact h
  | returned state => trivial

theorem Safe.wakeLate (h : w.Safe t) : w.Safe (t.wakeLate w.log) := by
  obtain ⟨epoch, after, expired, point⟩ := t
  cases point with
  | looking | checking seen | returned state => exact h
  | parked seen =>
    simp only [Watcher.wakeLate]
    split_ifs
    · trivial
    · exact h

/-- A clean round that passes a parked wait has a publish due. -/
theorem Safe.pull (h : w.Safe t) {index : ℕ} {page : RelayPage} {faults : PullFaults}
    (hcln : w.CleanAt (.pull index page faults)) : (w.step (.pull index page faults)).Safe t := by
  rcases w.pull_cases index page faults with heq | ⟨hresult, link, hlink, hlog, hres, hver⟩
  · rwa [heq]
  · obtain ⟨epoch, after, expired, point⟩ := t
    have hqui : w.publishes = false := by rw [publishes, hresult]
    cases point with
    | looking | returned state => trivial
    | checking seen =>
      change seen ≤ _
      rw [hver]
      exact h
    | parked seen =>
      refine ⟨hver ▸ h.1, fun hseen hahead => ?_⟩
      rw [hver] at hseen
      -- before the round the log was not ahead of the wait
      have hbef : ¬ after < w.head := by
        intro hlt
        have hdue := h.2 hseen hlt
        rw [hqui] at hdue
        cases hdue
      have hgrew : w.node.streamLength <
          (w.node.after (w.node.syncRelayOnce index link.relayCursor page faults).effects).streamLength := by
        have hahead' : after < _ := hahead
        rw [head, hlog] at hahead'
        rw [head] at hbef
        rw [Node.streamLength, Node.streamLength]
        exact lt_of_le_of_lt (not_lt.1 hbef) hahead'
      have hround := hcln hresult (by rw [hlink]; rfl)
      obtain ⟨outcome, hok, happended⟩ := hround.publishes index link.relayCursor hgrew
      rw [publishes, hres, hok]
      exact Bool.and_eq_true_iff.2 ⟨decide_eq_true happended, head_isSome (Nat.zero_lt_of_lt hahead)⟩

theorem Safe.publish (h : w.Safe t) : (w.step .publish).Safe t := by
  obtain ⟨epoch, after, expired, point⟩ := t
  have hle := w.version_le_step .publish
  cases point with
  | looking | returned state => trivial
  | checking seen => exact le_trans h hle
  | parked seen =>
    refine ⟨h.1.trans hle, fun hseen hahead => ?_⟩
    -- a publish that was due has raised the version
    cases hdue : w.publishes with
    | true =>
      have hver : (w.step .publish).version = w.version + 1 := by simp only [step, hdue, if_true]
      have := h.1
      omega
    | false =>
      have hver : (w.step .publish).version = w.version := by simp [step, hdue]
      have hold := h.2 (hseen.trans hver) hahead
      rw [hdue] at hold
      cases hold

theorem Safe.step (h : w.Safe t) {e : WatchEvent} (hcln : w.CleanAt e) (i : ℕ) :
    (w.step e).Safe (w.next i t e) := by
  cases e with
  | pull index page faults => exact h.pull hcln
  | publish => exact h.publish
  | watch epoch after => exact h
  | turn j =>
    rw [next]
    split_ifs
    · exact h.turn
    · exact h
  | expire j =>
    rw [next]
    split_ifs
    · exact h.of_point rfl rfl
    · exact h
  | wakeLate j =>
    rw [next]
    split_ifs
    · exact h.wakeLate
    · exact h

variable {w : WatchWorld H}

/-- In a run of clean rounds no wait can miss a wake-up. -/
theorem safe_run (events : List WatchEvent) (hcln : w.CleanFrom events)
    (h : ∀ (i : ℕ) t, w.watchers[i]? = some t → w.Safe t) :
    ∀ (i : ℕ) t, (w.run events).watchers[i]? = some t → (w.run events).Safe t := by
  induction events generalizing w with
  | nil => exact h
  | cons e events ih =>
    refine ih hcln.2 fun i u hu => ?_
    rcases watcher_cases hu with ⟨t, ht, rfl⟩ | hnew
    · exact (h i t ht).step hcln.1 i
    · rw [Safe, hnew]
      trivial

/-! ## A wait that the log has passed -/

/-- The log is ahead of the wait, and what it returned says so. -/
def Behind (w : WatchWorld H) (t : Watcher) : Prop :=
  t.after < w.head ∧ ∀ state, t.point = .returned state → t.after < state.head

/-- The ways a wait can move: not at all, by its deadline, by a turn or by its late end. -/
theorem next_cases (w : WatchWorld H) (i : ℕ) (t : Watcher) (e : WatchEvent) :
    (e = .turn i ∧ w.next i t e = t.turn w.log w.version) ∨
    e ≠ .turn i ∧ (w.next i t e = t ∨ e = .expire i ∧ w.next i t e = { t with expired := true } ∨
      w.next i t e = t.wakeLate w.log) := by
  cases e with
  | pull | publish | watch => exact .inr ⟨nofun, .inl rfl⟩
  | turn j =>
    by_cases hj : j = i
    · subst hj
      exact .inl ⟨rfl, if_pos rfl⟩
    · exact .inr ⟨fun h => hj (WatchEvent.turn.inj h), .inl (if_neg hj)⟩
  | expire j =>
    refine .inr ⟨nofun, ?_⟩
    by_cases hj : j = i
    · subst hj
      exact .inr (.inl ⟨rfl, if_pos rfl⟩)
    · exact .inl (if_neg hj)
  | wakeLate j =>
    refine .inr ⟨nofun, ?_⟩
    by_cases hj : j = i
    · exact .inr (.inr (if_pos hj))
    · exact .inl (if_neg hj)

def turnsLeft (t : Watcher) : ℕ :=
  match t.point with
  | .parked _ => 3
  | .looking => 2
  | .checking _ => 1
  | .returned _ => 0

theorem Behind.later {w' : WatchWorld H} (h : w.Behind t) (hhead : w.head ≤ w'.head) :
    w'.Behind t :=
  ⟨h.1.trans_le hhead, h.2⟩

/-- A turn of a wait that is behind brings it nearer to its end, unless it is parked at the
present version. -/
theorem Behind.turn (h : w.Behind t) :
    w.Behind (t.turn w.log w.version) ∧ (t.turn w.log w.version).after = t.after ∧
      (t.turn w.log w.version).expired = t.expired ∧
      ((∀ seen, t.point = .parked seen → seen < w.version) →
        (∀ seen, (t.turn w.log w.version).point ≠ .parked seen) ∧
          turnsLeft (t.turn w.log w.version) ≤ turnsLeft t - 1) := by
  obtain ⟨epoch, after, expired, point⟩ := t
  cases point with
  | looking => exact ⟨⟨h.1, nofun⟩, rfl, rfl, fun _ => ⟨nofun, le_rfl⟩⟩
  | checking seen =>
    have hchanged : Watcher.changed ⟨epoch, after, expired, .checking seen⟩ w.log.relayState = true := by
      have hhead : w.log.relayState.head > after := h.1
      simp only [Watcher.changed, decide_eq_true hhead, Bool.or_true]
    have hturn : Watcher.turn w.log w.version ⟨epoch, after, expired, .checking seen⟩ =
        ⟨epoch, after, expired, .returned w.log.relayState⟩ := by
      simp only [Watcher.turn, hchanged, Bool.true_or, if_true]
    rw [hturn]
    refine ⟨⟨h.1, fun state hstate => ?_⟩, rfl, rfl, fun _ => ⟨nofun, le_rfl⟩⟩
    obtain rfl := WatchPoint.returned.inj hstate
    exact h.1
  | parked seen =>
    by_cases hnew : w.version ≠ seen
    · have hturn : Watcher.turn w.log w.version ⟨epoch, after, expired, .parked seen⟩ =
          ⟨epoch, after, expired, .looking⟩ := by
        simp only [Watcher.turn, if_pos hnew]
      rw [hturn]
      exact ⟨⟨h.1, nofun⟩, rfl, rfl, fun _ => ⟨nofun, le_rfl⟩⟩
    · have hturn : Watcher.turn w.log w.version ⟨epoch, after, expired, .parked seen⟩ =
          ⟨epoch, after, expired, .parked seen⟩ := by
        simp only [Watcher.turn, if_neg hnew]
      rw [hturn]
      refine ⟨h, rfl, rfl, fun hpast => absurd (hpast seen rfl) ?_⟩
      rw [not_not.1 hnew]
      exact lt_irrefl _
  | returned state => exact ⟨h, rfl, rfl, fun _ => ⟨nofun, le_rfl⟩⟩

theorem Behind.wakeLate (h : w.Behind t) :
    w.Behind (t.wakeLate w.log) ∧ (t.wakeLate w.log).after = t.after ∧
      (t.wakeLate w.log).expired = t.expired ∧ turnsLeft (t.wakeLate w.log) ≤ turnsLeft t ∧
      ((t.wakeLate w.log).point = t.point ∨ ∃ state, (t.wakeLate w.log).point = .returned state) := by
  obtain ⟨epoch, after, expired, point⟩ := t
  cases point with
  | looking | checking seen | returned state => exact ⟨h, rfl, rfl, le_rfl, .inl rfl⟩
  | parked seen =>
    cases expired with
    | false => exact ⟨h, rfl, rfl, le_rfl, .inl rfl⟩
    | true =>
      refine ⟨⟨h.1, fun state hstate => ?_⟩, rfl, rfl, Nat.zero_le _, .inr ⟨_, rfl⟩⟩
      obtain rfl := WatchPoint.returned.inj hstate
      exact h.1

/-- A wait that the log has passed stays so, and its deadline passes only by `expire`. -/
theorem Behind.step (h : w.Behind t) (i : ℕ) (e : WatchEvent) :
    (w.step e).Behind (w.next i t e) ∧ (w.next i t e).after = t.after ∧
      (e ≠ .expire i → (w.next i t e).expired = t.expired) := by
  have hhead := w.head_step e
  rcases w.next_cases i t e with ⟨-, heq⟩ | ⟨-, heq | ⟨he, heq⟩ | heq⟩
  · rw [heq]
    obtain ⟨hbhd, haft, hexp, -⟩ := h.turn
    exact ⟨hbhd.later hhead, haft, fun _ => hexp⟩
  · rw [heq]
    exact ⟨h.later hhead, rfl, fun _ => rfl⟩
  · rw [heq]
    exact ⟨h.later hhead, rfl, fun hne => absurd he hne⟩
  · rw [heq]
    obtain ⟨hbhd, haft, hexp, -, -⟩ := h.wakeLate
    exact ⟨hbhd.later hhead, haft, fun _ => hexp⟩

theorem behind_run (events : List WatchEvent) (ht : w.watchers[i]? = some t) (h : w.Behind t) :
    ∃ u, (w.run events).watchers[i]? = some u ∧ (w.run events).Behind u ∧ u.after = t.after ∧
      (.expire i ∉ events → u.expired = t.expired) := by
  induction events generalizing w t with
  | nil => exact ⟨t, ht, h, rfl, fun _ => rfl⟩
  | cons e events ih =>
    obtain ⟨hbhd, haft, hexp⟩ := h.step i e
    obtain ⟨u, hu, hu', hsame, hlate⟩ := ih (watcher_step ht e) hbhd
    refine ⟨u, hu, hu', hsame.trans haft, fun hnot => ?_⟩
    rw [mem_cons, not_or] at hnot
    exact (hlate hnot.2).trans (hexp fun he => hnot.1 he.symm)

/-- A wait that the log has passed and that is not parked at the present version. -/
structure Roused (w : WatchWorld H) (t : Watcher) : Prop where
  behind : w.Behind t
  past : ∀ seen, t.point = .parked seen → seen < w.version

theorem Roused.step (h : w.Roused t) (i : ℕ) (e : WatchEvent) :
    (w.step e).Roused (w.next i t e) ∧ turnsLeft (w.next i t e) ≤ turnsLeft t ∧
      (e = .turn i → turnsLeft (w.next i t e) ≤ turnsLeft t - 1) := by
  have hbhd := (h.behind.step i e).1
  have hver := w.version_le_step e
  have hkept : ∀ seen, t.point = .parked seen → seen < (w.step e).version :=
    fun seen hseen => (h.past seen hseen).trans_le hver
  rcases w.next_cases i t e with ⟨he, heq⟩ | ⟨hne, heq | ⟨he, heq⟩ | heq⟩
  · rw [heq] at hbhd ⊢
    obtain ⟨-, -, -, hturn⟩ := h.behind.turn
    obtain ⟨hpt, hleft⟩ := hturn h.past
    exact ⟨⟨hbhd, fun seen hseen => absurd hseen (hpt seen)⟩, hleft.trans (Nat.sub_le _ _), fun _ => hleft⟩
  · rw [heq] at hbhd ⊢
    exact ⟨⟨hbhd, hkept⟩, le_rfl, fun he => absurd he hne⟩
  · rw [heq] at hbhd ⊢
    exact ⟨⟨hbhd, hkept⟩, le_rfl, fun he => absurd he hne⟩
  · rw [heq] at hbhd ⊢
    obtain ⟨-, -, -, hleft, hpt | ⟨state, hpt⟩⟩ := h.behind.wakeLate
    · exact ⟨⟨hbhd, fun seen hseen => hkept seen (hpt.symm.trans hseen)⟩, hleft, fun he => absurd he hne⟩
    · exact ⟨⟨hbhd, fun seen hseen => by rw [hpt] at hseen; cases hseen⟩, hleft, fun he => absurd he hne⟩

def isTurn (i : ℕ) : WatchEvent → Bool
  | .turn j => j = i
  | _ => false

theorem roused_run (events : List WatchEvent) (ht : w.watchers[i]? = some t) (h : w.Roused t) :
    ∃ u, (w.run events).watchers[i]? = some u ∧ turnsLeft u ≤ turnsLeft t - events.countP (isTurn i) := by
  induction events generalizing w t with
  | nil => exact ⟨t, ht, le_rfl⟩
  | cons e events ih =>
    obtain ⟨hnext, hleft, hturn⟩ := h.step i e
    obtain ⟨u, hu, hless⟩ := ih (watcher_step ht e) hnext
    refine ⟨u, hu, hless.trans ?_⟩
    rw [countP_cons]
    cases hone : isTurn i e with
    | false =>
      simp only [Bool.false_eq_true, if_false, Nat.add_zero]
      exact Nat.sub_le_sub_right hleft _
    | true =>
      have he : e = .turn i := by
        cases e with
        | turn j => rw [of_decide_eq_true hone]
        | pull | publish | watch | expire | wakeLate => cases hone
      have := hturn he
      simp only [if_true]
      omega

/-- In a run of clean rounds, a wait that the log's head has passed at some moment returns within
three of its own turns behind any later moment at which no round has still to publish, with a
state whose head has passed it; its deadline plays no part in that. -/
theorem waits_are_woken (node : Node H) (before first rest : List WatchEvent) (i : ℕ) (t : Watcher)
    (hcln : (start node).CleanFrom (before ++ first ++ rest))
    (ht : ((start node).run before).watchers[i]? = some t) (hwaits : ∀ state, t.point ≠ .returned state)
    (hpas : t.after < ((start node).run before).log.relayState.head)
    (hpublished : ((start node).run (before ++ first)).result = none) (hturns : 3 ≤ rest.countP (isTurn i)) :
    ∃ u state, ((start node).run (before ++ first ++ rest)).watchers[i]? = some u ∧
      u.point = .returned state ∧ t.after < state.head ∧
      (.expire i ∉ first ++ rest → u.expired = t.expired) := by
  have hbhd : ((start node).run before).Behind t := ⟨hpas, fun state h => absurd h (hwaits state)⟩
  obtain ⟨v, hv, hv', -, -⟩ := behind_run first ht hbhd
  rw [← run_append] at hv hv'
  have hsafe := safe_run (before ++ first) hcln.left
    (fun j t h => by rw [start, List.getElem?_nil] at h; cases h) i v hv
  have hpast : ∀ seen, v.point = .parked seen → seen < ((start node).run (before ++ first)).version := by
    intro seen hseen
    rw [Safe, hseen] at hsafe
    refine lt_of_le_of_ne hsafe.1 fun heq => ?_
    -- parked at the present version with the log ahead, a publish would be due
    have hdue := hsafe.2 heq hv'.1
    rw [publishes, hpublished] at hdue
    cases hdue
  obtain ⟨u, hu, hleft⟩ := roused_run rest hv ⟨hv', hpast⟩
  obtain ⟨u', hu', hend, haft, hlate⟩ := behind_run (first ++ rest) ht hbhd
  rw [← run_append] at hu
  rw [← run_append, ← List.append_assoc] at hu' hend
  obtain rfl := Option.some.inj (hu.symm.trans hu')
  have hzero : turnsLeft u = 0 := by
    have hmost : turnsLeft v ≤ 3 := by
      rw [turnsLeft]
      split <;> omega
    omega
  cases hpt : u.point with
  | returned state => exact ⟨u, state, hu, hpt, haft ▸ hend.2 state hpt, hlate⟩
  | looking | checking | parked =>
    rw [turnsLeft, hpt] at hzero
    cases hzero

/-! ## A round that ends well and one that does not -/

namespace OneWait

def author : Bytes 32 := padTo 32 [7]

def epoch : Epoch := fill 32 9

def oneLink : Node plainHost :=
  ⟨.empty, ⟨(), DeviceRegistry.new.insertKey author, .new epoch, (∅ : KvStore), false, [⟨padTo 32 [8], .start⟩]⟩⟩

def calm : PullFaults := ⟨fun _ => .written, true, .saved⟩

def onePage : RelayPage := ⟨fill 32 5, 1, 0, 1, false, [⟨1, plainPut author 20⟩]⟩

def twoPage : RelayPage := ⟨fill 32 5, 2, 0, 2, false, [⟨1, plainPut author 20⟩, ⟨2, plainPut (padTo 32 [6]) 21⟩]⟩

/-- A wait parks, then a round pulls the page and comes to its publish step. -/
def parkThenPull (page : RelayPage) : List WatchEvent :=
  [.watch epoch 0, .turn 0, .turn 0, .pull 0 page calm, .publish]

def threeTurns : List WatchEvent := [.turn 0, .turn 0, .turn 0]

def parked : Watcher := ⟨epoch, 0, false, .parked 0⟩

end OneWait

open OneWait in
theorem waits_are_woken_once :
    (start oneLink).CleanFrom (parkThenPull onePage ++ [] ++ threeTurns) ∧
    ((start oneLink).run (parkThenPull onePage)).watchers[0]? = some parked ∧
    ∃ u state, ((start oneLink).run (parkThenPull onePage ++ [] ++ threeTurns)).watchers[0]? = some u ∧
      u.point = .returned state ∧ 0 < state.head ∧
      (.expire 0 ∉ [] ++ threeTurns → u.expired = false) := by
  have hround : oneLink.CleanRound onePage calm := by
    refine Or.inr (Or.inl ?_)
    have hpass : (onePage.entries.foldlM (Node.accept calm.writes) oneLink).any fun node' =>
        (kvStore.replay node'.daemon.log node'.daemon.store).2.isNone := by decide +kernel
    obtain ⟨node', hnode', hrep⟩ := (Option.any_eq_true _ _).1 hpass
    exact ⟨node', hnode', rfl, Option.isNone_iff_eq_none.1 hrep⟩
  have hcln : (start oneLink).CleanFrom (parkThenPull onePage ++ [] ++ threeTurns) :=
    ⟨trivial, trivial, trivial, fun _ _ => hround, trivial, trivial, trivial, trivial, trivial⟩
  have hparked : ((start oneLink).run (parkThenPull onePage)).watchers[0]? = some parked := by decide +kernel
  have hhead : 0 < ((start oneLink).run (parkThenPull onePage)).log.relayState.head := by decide +kernel
  have hdone : ((start oneLink).run (parkThenPull onePage ++ [])).result = none := rfl
  exact ⟨hcln, hparked, waits_are_woken oneLink (parkThenPull onePage) [] threeTurns 0 parked
    hcln hparked nofun hhead hdone (by decide)⟩

theorem step_parked {seen : ℕ} (ht : w.watchers[i]? = some t) (hpt : t.point = .parked seen)
    (hseen : w.version = seen) : w.step (.turn i) = w := by
  have hsame : t.turn w.log w.version = t := by
    rw [Watcher.turn, hpt]
    exact if_neg (not_not.2 hseen)
  have hwatchers : w.watchers.modify i (Watcher.turn w.log w.version) = w.watchers := by
    refine ext_getElem? fun j => ?_
    rw [getElem?_modify]
    split_ifs with hj
    · subst hj
      rw [ht]
      exact congrArg some hsame
    · exact id_map _
  rw [step, hwatchers]

theorem run_parked {seen : ℕ} (ht : w.watchers[i]? = some t) (hpt : t.point = .parked seen)
    (hseen : w.version = seen) (n : ℕ) : w.run (replicate n (.turn i)) = w := by
  induction n with
  | zero => rfl
  | succ n ih =>
    rw [replicate_succ, run, foldl_cons, step_parked ht hpt hseen]
    exact ih

open OneWait in
/-- The round appends the first op and fails at the second: nothing is published, and the wait
stays parked behind the log for ever, however many turns it takes. -/
theorem failed_round_wakes_nobody :
    ((start oneLink).run (parkThenPull twoPage)).log.relayState.head = 1 ∧
    ((start oneLink).run (parkThenPull twoPage)).result.isNone = true ∧
    parked.after = 0 ∧
    ∀ n, ((start oneLink).run (parkThenPull twoPage ++ List.replicate n (.turn 0))).watchers[0]? =
      some parked := by
  have hparked : ((start oneLink).run (parkThenPull twoPage)).watchers[0]? = some parked := by decide +kernel
  have hvers : ((start oneLink).run (parkThenPull twoPage)).version = 0 := by decide +kernel
  refine ⟨by decide +kernel, rfl, rfl, fun n => ?_⟩
  rw [run_append, run_parked hparked rfl hvers]
  exact hparked

end WatchWorld

end ProxyNode
