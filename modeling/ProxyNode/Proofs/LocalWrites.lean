import ProxyNode.Sanity.Admission
import ProxyNode.Spec.Clock
import ProxyNode.Spec.Kv

/-! Local writes and the clock: whatever puts an op in the log folds its reading into the
running clock, except the replay of the op-log file. A commit is above the whole log as
long as no restart replays a reading that physical time has not passed. -/

namespace ProxyNode

open Journal List Option

namespace NodeClock

variable {clock clock' : NodeClock}

/-- The instance has returned or folded something at or above `time`. -/
def Reached (clock : NodeClock) (time : ℕ) : Prop := ∃ last, clock.last = some last ∧ time ≤ last

def Passed (clock : NodeClock) (time : ℕ) : Prop := clock.Reached time ∨ time < clock.physical

theorem newTimestamp_spec (clock : NodeClock) :
    clock.physical ≤ clock.newTimestamp ∧ ∀ last, clock.last = some last → last < clock.newTimestamp := by
  rw [newTimestamp]
  cases clock.last with
  | none => exact ⟨le_rfl, by simp⟩
  | some last =>
    simp only [some.injEq, forall_eq']
    split <;> omega

variable {time : ℕ}

theorem Passed.lt_now (h : clock.Passed time) : time < clock.now.2 := by
  obtain ⟨hphys, hlast⟩ := clock.elapse.newTimestamp_spec
  have helapse : clock.physical ≤ clock.elapse.physical := Nat.le_add_right _ _
  change time < clock.elapse.newTimestamp
  rcases h with ⟨last, heq, hle⟩ | hlt
  · exact lt_of_le_of_lt hle (hlast last heq)
  · omega

theorem physical_now (clock : NodeClock) : clock.physical ≤ clock.now.1.physical := Nat.le_add_right _ _

theorem Reached.now (h : clock.Reached time) : clock.now.1.Reached time :=
  ⟨clock.now.2, rfl, (Passed.lt_now (.inl h)).le⟩

theorem reached_now (clock : NodeClock) : clock.now.1.Reached clock.now.2 := ⟨clock.now.2, rfl, le_rfl⟩

/-- A folded reading is reached, and nothing reached before is lost. -/
theorem update_ok {remote : Hlc} {sender : DeviceId} (h : clock.update remote sender = .ok clock') :
    clock'.Reached remote.val ∧ clock.physical ≤ clock'.physical ∧
      ∀ time, clock.Reached time → clock'.Reached time := by
  rw [update] at h
  split at h
  · cases h
  cases h
  obtain ⟨folded, hfolded⟩ : ∃ folded : NodeClock, { clock.elapse with
      last := some (clock.elapse.last.elim remote.val (max · remote.val)) } = folded := ⟨_, rfl⟩
  have hlast : folded.last = some (clock.elapse.last.elim remote.val (max · remote.val)) := by rw [← hfolded]
  have hphys : clock.physical ≤ folded.physical := by
    rw [← hfolded]
    exact Nat.le_add_right _ _
  rw [hfolded]
  refine ⟨Reached.now ⟨_, hlast, ?_⟩, hphys.trans folded.physical_now, fun time hrch => ?_⟩
  · cases clock.elapse.last with
    | none => exact le_rfl
    | some last => exact le_max_right _ _
  · obtain ⟨last, heq, hle⟩ := hrch
    refine Reached.now ⟨_, hlast, ?_⟩
    have heq' : clock.elapse.last = some last := heq
    rw [heq', elim_some]
    exact hle.trans (le_max_left _ _)

def Later (clock clock' : NodeClock) : Prop :=
  clock.physical ≤ clock'.physical ∧ ∀ time, clock.Reached time → clock'.Reached time

theorem Passed.later (h : clock.Passed time) (hlater : clock.Later clock') : clock'.Passed time := by
  rcases h with hrch | hlt
  · exact .inl (hlater.2 time hrch)
  · exact .inr (hlt.trans_le hlater.1)

end NodeClock

/-- The clock has passed every reading in the log. -/
def Current (clock : NodeClock) (log : OpLog) : Prop := ∀ op ∈ log.arrivals, clock.Passed op.body.hlc.val

variable {clock : NodeClock} {log : OpLog}

theorem Current.later {clock' : NodeClock} (h : Current clock log) (hlater : clock.Later clock') :
    Current clock' log :=
  fun op hop => (h op hop).later hlater

theorem Current.append (h : Current clock log) {op : SignedOp} (hop : clock.Passed op.body.hlc.val) :
    Current clock (log.append op).1 := by
  intro x hx
  rcases OpLog.mem_arrivals_append hx with hx | rfl
  · exact h x hx
  · exact hop

theorem Current.update {clock' : NodeClock} (h : Current clock log) {op : SignedOp}
    (hupd : clock.update op.body.hlc op.body.device = .ok clock') :
    Current clock' log ∧ Current clock' (log.append op).1 ∧ clock.Later clock' := by
  obtain ⟨hrch, hphys, hkept⟩ := NodeClock.update_ok hupd
  have hlog := h.later ⟨hphys, hkept⟩
  exact ⟨hlog, hlog.append (.inl hrch), hphys, hkept⟩

variable {C : Crypto} {S : Store}

/-! ## Pulls -/

namespace Node

def IsCurrent (node : Node (clockHost C S)) : Prop := Current node.daemon.clock node.daemon.log

def Quiet : NodeEffect (clockHost C S) → Prop
  | .clock _ => False
  | .append _ => False
  | _ => True

variable {node : Node (clockHost C S)}

theorem IsCurrent.quiet (h : node.IsCurrent) {effect : NodeEffect (clockHost C S)} (hqui : Quiet effect) :
    (node.perform effect).IsCurrent := by
  cases effect with
  | clock _ => exact hqui.elim
  | append _ => exact hqui.elim
  | disk _ => exact h
  | registry _ => exact h
  | replay => exact h
  | poison => exact h
  | setCursor _ _ => exact h

variable {effects : List (NodeEffect (clockHost C S))}

theorem IsCurrent.along_quiet (h : node.IsCurrent) (hqui : ∀ effect ∈ effects, Quiet effect) :
    Along perform IsCurrent node effects :=
  along_of_step h fun effect he _ hnode => hnode.quiet (hqui effect he)

theorem writerAppend_quiet (node : Node (clockHost C S)) (op : SignedOp) (outcome : WriteOutcome) :
    ∀ effect ∈ (node.writerAppend op outcome).1, Quiet effect := by
  intro effect he
  unfold writerAppend at he
  split_ifs at he with hpoisoned
  · exact absurd he not_mem_nil
  cases outcome with
  | noMetadata => exact absurd he not_mem_nil
  | written =>
    rw [mem_singleton.1 he]
    trivial
  | failed bytes setLen seek =>
    cases setLen <;> cases seek <;> simp at he <;> rcases he with rfl | rfl | rfl <;> trivial

theorem after_quiet_same (node : Node (clockHost C S)) (hqui : ∀ effect ∈ effects, Quiet effect) :
    (node.after effects).daemon.clock = node.daemon.clock ∧ (node.after effects).daemon.log = node.daemon.log := by
  induction effects generalizing node with
  | nil => exact ⟨rfl, rfl⟩
  | cons effect effects ih =>
    have hsame : (node.perform effect).daemon.clock = node.daemon.clock ∧
        (node.perform effect).daemon.log = node.daemon.log := by
      have hq := hqui effect mem_cons_self
      cases effect with
      | clock _ => exact hq.elim
      | append _ => exact hq.elim
      | disk _ => exact ⟨rfl, rfl⟩
      | registry _ => exact ⟨rfl, rfl⟩
      | replay => exact ⟨rfl, rfl⟩
      | poison => exact ⟨rfl, rfl⟩
      | setCursor _ _ => exact ⟨rfl, rfl⟩
    have hrest := ih (node.perform effect) fun e he => hqui e (mem_cons_of_mem _ he)
    exact ⟨hrest.1.trans hsame.1, hrest.2.trans hsame.2⟩

theorem persistKeys_quiet (registry evicted : DeviceRegistry C) (save : SaveOutcome) :
    ∀ effect ∈ persistKeys (H := clockHost C S) registry evicted save, Quiet effect := by
  intro effect he
  cases save <;>
    simp only [persistKeys, savePeerKeys, SaveOutcome.effects, map_cons, map_nil, cons_append,
      nil_append, mem_cons, not_mem_nil, or_false] at he
  · rcases he with rfl | rfl | rfl <;> trivial
  · rcases he with rfl | rfl <;> trivial
  · rcases he with rfl | rfl | rfl <;> trivial

theorem registerPeer_quiet (node : Node (clockHost C S)) (advertised : DeviceId) (publicKeySec1 : List Byte)
    (save : SaveOutcome) : ∀ effect ∈ node.registerPeer advertised publicKeySec1 save, Quiet effect := by
  rw [registerPeer]
  split
  · split
    · simp
    · split_ifs
      · simp
      · simp [Quiet]
      · exact persistKeys_quiet _ _ save
  · simp

theorem learnDevices_quiet (node : Node (clockHost C S)) (devices : List (DeviceId × List Byte))
    (save : SaveOutcome) :
    ∀ effect ∈ node.learnDevices devices save, Quiet effect := by
  simp only [learnDevices]
  split_ifs
  · simp
  · exact persistKeys_quiet _ _ save

/-- The clock has been moved for the op, writes went by, and the op is appended. -/
theorem IsCurrent.appendAfter {clock : (clockHost C S).Clock} {op : SignedOp}
    (happ : Current clock (node.daemon.log.append op).1) (hqui : ∀ effect ∈ effects, Quiet effect) :
    (((node.perform (.clock clock)).after effects).perform (.append op)).IsCurrent := by
  obtain ⟨hsameClock, hsameLog⟩ := after_quiet_same (node.perform (.clock clock)) hqui
  change Current ((node.perform (.clock clock)).after _).daemon.clock
    (((node.perform (.clock clock)).after _).daemon.log.append op).1
  rw [hsameClock, hsameLog]
  exact happ

/-- Every entry of a page folds its reading before it is appended. -/
theorem relayLoop_current (writes : ℕ → WriteOutcome) (entries : List RelayOp) (h : node.IsCurrent) (after : ℕ) :
    Along perform IsCurrent node (relayLoop writes entries node after).effects := by
  induction entries generalizing node after with
  | nil => exact along_nil.2 h
  | cons entry entries ih =>
    obtain ⟨seq, op⟩ := entry
    rw [relayLoop]
    cases hkey : node.daemon.registry.keyFor op.body.device with
    | none => exact along_nil.2 h
    | some verifying =>
      cases hver : op.verify (clockHost C S).crypto verifying with
      | error e =>
        simp only [hver]
        exact along_nil.2 h
      | ok _ =>
        cases hupd : (clockHost C S).clockUpdate node.daemon.clock op.body.hlc op.body.device with
        | error e =>
          simp only [hver]
          exact along_nil.2 h
        | ok clock =>
          obtain ⟨hclk, happ, -⟩ := h.update hupd
          have hfst : (node.perform (.clock clock)).IsCurrent := hclk
          simp only [hver]
          split
          · exact along_cons.2 ⟨h, ih hfst seq⟩
          have hqui := writerAppend_quiet node op (writes seq)
          have hwrites := hfst.along_quiet hqui
          cases hwrite : (node.writerAppend op (writes seq)).2 with
          | some e =>
            simp only
            exact along_cons.2 ⟨h, hwrites⟩
          | none =>
            have hlast := IsCurrent.appendAfter happ hqui
            have hent : Along perform IsCurrent node
                (.clock clock :: (node.writerAppend op (writes seq)).1 ++ [.append op]) :=
              along_cons.2 ⟨h, along_append.2 ⟨hwrites, along_cons.2 ⟨hwrites.final, along_nil.2 hlast⟩⟩⟩
            exact along_append.2 ⟨hent, ih hent.final seq⟩

theorem IsCurrent.syncRelayOnce (h : node.IsCurrent) (index : ℕ) (cursor : RelayCursor) (page : RelayPage)
    (faults : PullFaults) :
    Along perform IsCurrent node (node.syncRelayOnce index cursor page faults).effects := by
  have hloop := relayLoop_current faults.writes page.entries h cursor.after
  have htail : ∀ effects : List (NodeEffect (clockHost C S)), (∀ effect ∈ effects, Quiet effect) →
      Along perform IsCurrent node ((relayLoop faults.writes page.entries node cursor.after).effects ++ effects) :=
    fun effects hqui => along_append.2 ⟨hloop, IsCurrent.along_quiet hloop.final hqui⟩
  simp only [Node.syncRelayOnce]
  split_ifs
  · exact h.along_quiet (by simp [Quiet])
  · exact htail _ (by simp [Quiet])
  · split
    · exact htail _ (by simp [Quiet])
    · exact htail _ (by simp [Quiet])
  · exact hloop

theorem syncLoop_current (dur : Option (ℕ → WriteOutcome)) (ops : List SignedOp) (h : node.IsCurrent)
    (highest : OrderKey) (appended : ℕ) :
    (syncLoop dur ops node highest appended).node.IsCurrent := by
  induction ops generalizing node highest appended with
  | nil => exact h
  | cons op ops ih =>
    rw [syncLoop]
    cases hkey : node.daemon.registry.keyFor op.body.device with
    | none => exact h
    | some verifying =>
      cases hver : op.verify (clockHost C S).crypto verifying with
      | error e =>
        simp only [hver]
        exact h
      | ok _ =>
        cases hupd : (clockHost C S).clockUpdate node.daemon.clock op.body.hlc op.body.device with
        | error e =>
          simp only [hver]
          exact h
        | ok clock =>
          obtain ⟨hclk, happ, -⟩ := h.update hupd
          have hfst : (node.perform (.clock clock)).IsCurrent := hclk
          simp only [hver]
          split
          · exact ih hfst _ _
          cases dur with
          | none =>
            have hlast : ((node.perform (.clock clock)).perform (.append op)).IsCurrent := happ
            exact ih hlast _ _
          | some writes =>
            have hqui := writerAppend_quiet (node.perform (.clock clock)) op (writes appended)
            simp only
            split
            · exact (hfst.along_quiet hqui).final
            · exact ih (IsCurrent.appendAfter happ hqui) _ _

theorem IsCurrent.syncOnceWith (h : node.IsCurrent) (pulled : Except String (List SignedOp)) (cursor : OrderKey)
    (dur : Option (ℕ → WriteOutcome)) (fsync : Bool) (mode : ApplyMode) :
    (node.syncOnceWith pulled cursor dur fsync mode).node.IsCurrent := by
  cases pulled with
  | error e => exact h
  | ok ops =>
    have hloop := syncLoop_current dur ops h cursor 0
    have hsynced : (if dur.isSome then (syncLoop dur ops node cursor 0).node.perform (.disk .sync)
        else (syncLoop dur ops node cursor 0).node).IsCurrent := by
      split
      · exact hloop.quiet trivial
      · exact hloop
    simp only [Node.syncOnceWith]
    split
    · exact hloop
    · split
      · exact hloop
      · split <;> exact hsynced

end Node

/-! ## Admission by the pull socket -/

namespace OpLogPullSocket

variable {p : OpLogPullSocket (clockHost C S)}

theorem admitLoop_current (skipUnattested : Bool) (ops : List SignedOp) (h : Current p.clock p.log) :
    Along perform (fun p => Current p.clock p.log) p (admitLoop skipUnattested ops p).effects := by
  induction ops generalizing p with
  | nil => exact along_nil.2 h
  | cons op ops ih =>
    rcases admitLoop_cons skipUnattested op ops p with
      ⟨e, hstop⟩ | ⟨-, -, hskip⟩ | ⟨key, clock, -, -, hupd, hnext⟩
    · rw [hstop]
      exact along_nil.2 h
    · rw [hskip]
      exact ih h
    · obtain ⟨hclk, happ, -⟩ := h.update hupd
      rw [hnext]
      exact along_cons.2 ⟨h, along_cons.2 ⟨hclk, ih happ⟩⟩

theorem admitOps_current (h : Current p.clock p.log) (ops : List SignedOp) (skipUnattested : Bool) :
    Along perform (fun p => Current p.clock p.log) p (p.admitOps ops skipUnattested).effects := by
  have hloop := admitLoop_current skipUnattested ops h
  simp only [admitOps]
  split
  · exact along_append.2 ⟨hloop, along_cons.2 ⟨hloop.final, along_nil.2 hloop.final⟩⟩
  · exact hloop

end OpLogPullSocket

/-! ## Runs -/

namespace Device

/-- A running process is current, and its clock shows the device's time. -/
def Ok (d : Device C S) : Prop :=
  ∀ daemon, d.daemon = some daemon → Current daemon.clock daemon.log ∧ NodeClock.physical daemon.clock = d.physical

def ReplaysPast (d : Device C S) : DeviceEvent S → Prop
  | .restart crash elapsed elapses jumps random store =>
    ∀ daemon, (d.step (.restart crash elapsed elapses jumps random store)).daemon = some daemon →
      ∀ op ∈ daemon.log.arrivals, op.body.hlc.val < d.physical + elapsed
  | _ => True

/-- The op a commit would seal now is above everything logged. -/
def Dominates (d : Device C S) (store : StoreId) (payload : Payload) : Prop :=
  ∀ daemon op, d.daemon = some daemon → sealed d.identity daemon store payload = some op →
    ∀ logged ∈ daemon.log.arrivals, logged.orderKey < op.orderKey

variable {d : Device C S}

variable {node : Node (clockHost C S)}

theorem ok_settle (h : node.IsCurrent) : (d.settle node).Ok := by
  intro daemon hdmn
  obtain rfl : node.daemon = daemon := some.inj hdmn
  exact ⟨h, rfl⟩

theorem ok_execute {effects : List (NodeEffect (clockHost C S))}
    (h : Along Node.perform Node.IsCurrent node effects) (stop : Option ℕ) : (d.execute node effects stop).Ok :=
  ok_settle (h _)

theorem ok_new (identity : C.Secret) (physical : ℕ) (random : Epoch) (store : S.State) :
    (new identity physical random store : Device C S).Ok := by
  intro daemon hdmn
  cases hdmn
  have hemp : (OpLog.new random).arrivals = [] := rfl
  refine ⟨fun op hop => absurd hop ?_, rfl⟩
  rw [hemp]
  exact not_mem_nil

variable {daemon : Daemon (clockHost C S)}

theorem sealed_hlc {identity : C.Secret} {store : StoreId} {payload : Payload} {op : SignedOp}
    (h : sealed identity daemon store payload = some op) :
    op.body.hlc.val = (NodeClock.now daemon.clock).2 := by
  rw [sealed] at h
  split at h
  · cases h
    rfl
  · cases h

theorem Ok.commit (h : d.Ok) (hdmn : d.daemon = some daemon) (store : StoreId) (payload : Payload) :
    (d.commit daemon store payload).Ok := by
  rw [Device.commit]
  cases hsealed : sealed d.identity daemon store payload with
  | none => exact h
  | some op =>
    refine ok_settle ?_
    have hnow : Current (NodeClock.now daemon.clock).1 daemon.log :=
      (h daemon hdmn).1.later ⟨NodeClock.physical_now _, fun _ hr => hr.now⟩
    have hrch : NodeClock.Reached (NodeClock.now daemon.clock).1 op.body.hlc.val := by
      rw [sealed_hlc hsealed]
      exact NodeClock.reached_now _
    exact hnow.append (.inl hrch)

/-- A restart knows nothing of what it replays. -/
theorem restart_clock {crash : Crash} {elapsed : ℕ} {elapses jumps : List ℕ} {random : Epoch} {store : S.State}
    (h : (d.step (.restart crash elapsed elapses jumps random store)).daemon = some daemon) :
    daemon.clock = NodeClock.new (d.physical + elapsed) elapses jumps := by
  have hstarted : (startDaemon (C.verifyingKey d.identity) (d.disk.crash crash)
      (NodeClock.new (d.physical + elapsed) elapses jumps : (clockHost C S).Clock) random store).2 =
        some daemon := h
  simp only [startDaemon] at hstarted
  split at hstarted
  · cases hstarted
  · cases hstarted
    rfl

theorem Ok.of_running (h : d.Ok) {event : DeviceEvent S} (hstopped : d.daemon = none → d.step event = d)
    (hrunning : ∀ daemon, d.daemon = some daemon → (⟨d.disk, daemon⟩ : Node (clockHost C S)).IsCurrent →
      (d.step event).Ok) : (d.step event).Ok := by
  cases hdmn : d.daemon with
  | none => rwa [hstopped hdmn]
  | some daemon => exact hrunning daemon hdmn (h daemon hdmn).1

theorem Ok.step (h : d.Ok) {event : DeviceEvent S} (hpast : d.ReplaysPast event) :
    (d.step event).Ok := by
  cases event with
  | tick elapsed elapses jumps =>
    intro daemon hdmn
    obtain ⟨before, hbef, rfl⟩ := map_eq_some_iff.1 hdmn
    obtain ⟨hcur, hphys⟩ := h before hbef
    refine ⟨hcur.later ⟨?_, fun _ hr => hr⟩, rfl⟩
    rw [hphys]
    exact Nat.le_add_right _ _
  | restart crash elapsed elapses jumps random store =>
    intro daemon hdmn
    have hclk := restart_clock hdmn
    refine ⟨fun op hop => Or.inr ?_, by rw [hclk]; rfl⟩
    rw [hclk]
    exact hpast daemon hdmn op hop
  | commit store payload =>
    refine h.of_running (fun hnone => by simp only [Device.step, hnone]) fun daemon hdmn hnode => ?_
    simp only [Device.step, hdmn]
    exact h.commit hdmn store payload
  | syncOnce pulled cursor dur fsync mode =>
    refine h.of_running (fun hnone => by simp only [Device.step, hnone]) fun daemon hdmn hnode => ?_
    simp only [Device.step, hdmn]
    exact ok_settle (hnode.syncOnceWith pulled cursor dur fsync mode)
  | syncRelay link cursor page faults stop =>
    refine h.of_running (fun hnone => by simp only [Device.step, hnone]) fun daemon hdmn hnode => ?_
    simp only [Device.step, hdmn]
    exact ok_execute (hnode.syncRelayOnce link cursor page faults) stop
  | admitOps ops skipUnattested coverage cursors stop =>
    refine h.of_running (fun hnone => by simp only [Device.step, hnone]) fun daemon hdmn hnode => ?_
    simp only [Device.step, hdmn]
    exact ok_settle (OpLogPullSocket.admitOps_current (h daemon hdmn).1 ops skipUnattested _)
  | registerPeer advertised publicKeySec1 save stop =>
    refine h.of_running (fun hnone => by simp only [Device.step, hnone]) fun daemon hdmn hnode => ?_
    simp only [Device.step, hdmn]
    exact ok_execute (hnode.along_quiet (Node.registerPeer_quiet _ advertised publicKeySec1 save)) stop
  | learnDevices devices save stop =>
    refine h.of_running (fun hnone => by simp only [Device.step, hnone]) fun daemon hdmn hnode => ?_
    simp only [Device.step, hdmn]
    exact ok_execute (hnode.along_quiet (Node.learnDevices_quiet _ devices save)) stop

theorem Ok.run (h : d.Ok) {events : List (DeviceEvent S)}
    (hpast : ∀ before event after, events = before ++ event :: after → (d.run before).ReplaysPast event) :
    (d.run events).Ok := by
  induction events using reverseRecOn with
  | nil => exact h
  | append_singleton events event ih =>
    have hbef := ih fun before e after heq => hpast before e (after ++ [event]) (by rw [heq]; simp)
    rw [Device.run, foldl_append]
    exact hbef.step (hpast events event [] rfl)

theorem orderKey_lt {a b : SignedOp} (h : a.body.hlc.val < b.body.hlc.val) : a.orderKey < b.orderKey := by
  have hlex : toLex (a.body.hlc, toLex (a.body.device, a.id)) < toLex (b.body.hlc, toLex (b.body.device, b.id)) :=
    Prod.Lex.toLex_lt_toLex.2 (.inl h)
  exact hlex

theorem Ok.dominates (h : d.Ok) (store : StoreId) (payload : Payload) :
    d.Dominates store payload := by
  intro daemon op hdmn hsealed logged hlog
  refine orderKey_lt ?_
  rw [sealed_hlc hsealed]
  exact NodeClock.Passed.lt_now ((h daemon hdmn).1 logged hlog)

/-- A commit at the instant of a restart reads physical time, whatever was replayed. -/
theorem not_dominates_of_ahead (d : Device C S) (crash : Crash) (elapsed : ℕ) (elapses jumps : List ℕ)
    (random : Epoch) (st : S.State) (hinstant : elapses.headD 0 = 0)
    (hdmn : (d.step (.restart crash elapsed elapses jumps random st)).daemon = some daemon)
    {logged : SignedOp} (hlog : logged ∈ daemon.log.arrivals)
    (hahead : d.physical + elapsed < logged.body.hlc.val) (store : StoreId) (payload : Payload) :
    ¬(d.step (.restart crash elapsed elapses jumps random st)).Dominates store payload := by
  intro h
  have hlt := logged.body.hlc.isLt
  have htime : (NodeClock.now daemon.clock).2 = d.physical + elapsed := by
    rw [restart_clock hdmn]
    change d.physical + elapsed + elapses.headD 0 = d.physical + elapsed
    rw [hinstant, Nat.add_zero]
  have hsome : ∃ op, sealed d.identity daemon store payload = some op := by
    rw [sealed]
    simp only [htime]
    rw [dif_pos (hahead.trans hlt)]
    exact ⟨_, rfl⟩
  obtain ⟨op, hop⟩ := hsome
  have hbelow : op.orderKey < logged.orderKey := by
    refine orderKey_lt ?_
    rw [sealed_hlc hop, htime]
    exact hahead
  exact absurd (h daemon op hdmn hop logged hlog) (not_lt.2 hbelow.le)

/-- In every run whose restarts replay only readings that physical time has passed, each
commit seals an op above everything logged; after a restart that replays a reading ahead of
physical time, a commit at that instant does not. -/
theorem local_writes_dominate (C : Crypto) (S : Store) (identity : C.Secret) (physical : ℕ) (random : Epoch)
    (st : S.State) (events : List (DeviceEvent S)) :
    ((∀ before event after, events = before ++ event :: after →
        ((new identity physical random st : Device C S).run before).ReplaysPast event) →
      ∀ before store payload after, events = before ++ .commit store payload :: after →
        ((new identity physical random st : Device C S).run before).Dominates store payload) ∧
      ∀ crash elapsed elapses jumps random' st', elapses.headD 0 = 0 →
        let d : Device C S := (new identity physical random st).run events
        ∀ daemon, (d.step (.restart crash elapsed elapses jumps random' st')).daemon = some daemon →
          (∃ logged ∈ daemon.log.arrivals, d.physical + elapsed < logged.body.hlc.val) →
          ∀ store payload,
            ¬(d.step (.restart crash elapsed elapses jumps random' st')).Dominates store payload := by
  refine ⟨fun hpast before store payload after heq => ?_, ?_⟩
  · refine Ok.dominates
      (Ok.run (ok_new identity physical random st) fun before' event after' heq' => ?_) store payload
    exact hpast before' event (after' ++ .commit store payload :: after) (by rw [heq, heq']; simp)
  · intro crash elapsed elapses jumps random' st' hinstant d daemon hdmn hahead store payload
    obtain ⟨logged, hlog, hlt⟩ := hahead
    exact not_dominates_of_ahead d crash elapsed elapses jumps random' st' hinstant hdmn hlog hlt store
      payload

/-! ## A reading half an hour ahead -/

def second10 : Device plainCrypto kvStore := new (Wire.fill 32 1) (10 * 2 ^ 32) (Wire.fill 32 3) (∅ : KvStore)

def aheadOp : SignedOp := plainPut (Wire.fill 32 2) (1810 * 2 ^ 32)

def pulledRun : List (DeviceEvent kvStore) :=
  [.registerPeer (Wire.fill 32 2) (padTo 33 (Wire.fill 32 2).1).1 .saved none,
    .syncOnce (.ok [aheadOp]) .min (some fun _ => .written) true .replay]

def restartAfter (elapsed : ℕ) : DeviceEvent kvStore :=
  .restart ⟨[], 0, fun _ => 0⟩ elapsed [] [] (Wire.fill 32 4) (∅ : KvStore)

def smallPayload : Payload := ⟨KvOp.encode (.put (ascii "k") (ascii "w")), by decide⟩

/-- An hour later the same op is in the past. -/
theorem local_writes_dominate_hour_later :
    ((second10.run pulledRun).step (restartAfter (3600 * 2 ^ 32))).daemon.map (·.log.arrivals) = some [aheadOp] ∧
      (second10.run (pulledRun ++ [restartAfter (3600 * 2 ^ 32)])).Dominates kvStoreId smallPayload := by
  have hlog : ((second10.run pulledRun).step (restartAfter (3600 * 2 ^ 32))).daemon.map (·.log.arrivals) =
      some [aheadOp] := by decide +kernel
  refine ⟨hlog, ?_⟩
  have hmain :=
    (local_writes_dominate plainCrypto kvStore (Wire.fill 32 1) (10 * 2 ^ 32) (Wire.fill 32 3) (∅ : KvStore)
    (pulledRun ++ [restartAfter (3600 * 2 ^ 32), .commit kvStoreId smallPayload])).1 ?_
    (pulledRun ++ [restartAfter (3600 * 2 ^ 32)]) kvStoreId smallPayload [] (by simp)
  · exact hmain
  intro before event after heq
  rcases before with _ | ⟨_, _ | ⟨_, _ | ⟨_, _ | ⟨_, before⟩⟩⟩⟩ <;>
    simp only [pulledRun, List.nil_append, List.cons_append, List.cons.injEq] at heq
  · obtain ⟨rfl, -⟩ := heq
    trivial
  · obtain ⟨-, rfl, -⟩ := heq
    trivial
  · obtain ⟨rfl, rfl, rfl, -⟩ := heq
    intro daemon hdmn op hop
    have hstarted : ((second10.run pulledRun).step (restartAfter (3600 * 2 ^ 32))).daemon = some daemon := hdmn
    have hphys : (second10.run pulledRun).physical = 10 * 2 ^ 32 := by decide +kernel
    rw [hstarted, Option.map_some, Option.some.injEq] at hlog
    rw [hlog, List.mem_singleton] at hop
    change op.body.hlc.val < (second10.run pulledRun).physical + 3600 * 2 ^ 32
    rw [hphys, hop]
    decide
  · obtain ⟨-, -, -, rfl, -⟩ := heq
    trivial
  · simp at heq

/-- Restarted at once, device 1 seals below the op it has in its log. -/
theorem local_write_below_replayed :
    ¬((second10.run pulledRun).step (restartAfter 0)).Dominates kvStoreId smallPayload := by
  have hlog : ((second10.run pulledRun).step (restartAfter 0)).daemon.map (·.log.arrivals) = some [aheadOp] := by
    decide +kernel
  obtain ⟨daemon, hdmn, harr⟩ := Option.map_eq_some_iff.1 hlog
  have hmem : aheadOp ∈ daemon.log.arrivals := by
    rw [harr]
    exact List.mem_singleton_self _
  have hphys : (second10.run pulledRun).physical = 10 * 2 ^ 32 := by decide +kernel
  refine not_dominates_of_ahead _ _ 0 [] [] _ _ rfl hdmn hmem ?_ kvStoreId smallPayload
  rw [hphys]
  decide

end Device

end ProxyNode
