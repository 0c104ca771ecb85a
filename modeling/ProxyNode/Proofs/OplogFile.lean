import ProxyNode.Sanity.Envelope
import ProxyNode.Sanity.Replay
import ProxyNode.Spec.Kv
import ProxyNode.Spec.OplogFile

/-! The op-log file is whole frames of ops with at most one torn frame behind them, and a
writer that goes on writes behind no torn frame. A crash at any byte leaves that shape, and
the replay reads and keeps exactly the whole frames. -/

namespace ProxyNode

open Wire List SignedOp

variable {C : Crypto}

def Frameable (op : SignedOp) : Prop := op.body.v = envelopeVersion ∧ op.toBytes.length < 2 ^ 32

def opFrames (ops : List SignedOp) : List Byte := (ops.map SignedOp.toBytes).flatMap frame

@[simp] theorem opFrames_append (a b : List SignedOp) : opFrames (a ++ b) = opFrames a ++ opFrames b := by
  simp [opFrames]

@[simp] theorem opFrames_singleton (op : SignedOp) : opFrames [op] = frame op.toBytes := by
  simp [opFrames]

theorem Frameable.readable {op : SignedOp} (h : Frameable op) : Readable op.toBytes :=
  ⟨h.2, op, fromBytes_toBytes h.1⟩

variable {ops : List SignedOp}

theorem short_of_frameable (h : ∀ op ∈ ops, Frameable op) :
    ∀ p ∈ ops.map toBytes, p.length < 2 ^ 32 := by
  intro p hp
  obtain ⟨op, hop, rfl⟩ := mem_map.1 hp
  exact (h op hop).2

def TornFile (ops : List SignedOp) (torn bytes : List Byte) : Prop :=
  (∀ op ∈ ops, Frameable op) ∧ Torn torn ∧ bytes = opFrames ops ++ torn

/-- Only a writer that refuses every call has a torn frame behind it. -/
def OplogWriter.Ok (writer : OplogWriter) : Prop :=
  ∃ ops torn, TornFile ops torn writer.file.bytes ∧ (writer.poisoned = false → torn = [])

/-! ## Appending -/

namespace OplogWriter

variable {writer : OplogWriter} {op : SignedOp}

theorem append_ok {outcome : WriteOutcome} (h : (writer.append op outcome).2 = none) :
    (writer.append op outcome).1.file.bytes = writer.file.bytes ++ frame op.toBytes := by
  unfold append at h ⊢
  split_ifs at h ⊢ with hp
  cases outcome with
  | noMetadata => cases h
  | written => rfl
  | failed bytes setLen seek => cases h

theorem append_grows (writer : OplogWriter) (op : SignedOp) (outcome : WriteOutcome) :
    writer.file.bytes <+: (writer.append op outcome).1.file.bytes := by
  unfold append
  split_ifs with hp
  · exact prefix_rfl
  cases outcome with
  | noMetadata => exact prefix_rfl
  | written => exact prefix_append _ _
  | failed bytes setLen seek =>
    cases setLen with
    | false => exact prefix_append _ _
    | true =>
      simp only [if_true, DurableFile.write_setLen]
      exact prefix_rfl

theorem appendAll_grows (writer : OplogWriter) (calls : List (SignedOp × WriteOutcome)) :
    writer.file.bytes <+: (writer.appendAll calls).file.bytes := by
  induction calls generalizing writer with
  | nil => exact prefix_rfl
  | cons call calls ih => exact (writer.append_grows call.1 call.2).trans (ih _)

theorem Ok.append (h : writer.Ok) (hop : Frameable op) (outcome : WriteOutcome) :
    (writer.append op outcome).1.Ok := by
  obtain ⟨ops, torn, ⟨hops, ht, hbyt⟩, hcln⟩ := h
  unfold OplogWriter.append
  split_ifs with hp
  · exact ⟨ops, torn, ⟨hops, ht, hbyt⟩, hcln⟩
  obtain rfl := hcln (eq_false_of_ne_true hp)
  rw [append_nil] at hbyt
  have hsnoc : ∀ o ∈ ops ++ [op], Frameable o := by
    intro o ho
    rcases mem_append.1 ho with ho | ho
    · exact hops o ho
    · rwa [mem_singleton.1 ho]
  cases outcome with
  | noMetadata => exact ⟨ops, [], ⟨hops, ht, by rw [hbyt, append_nil]⟩, fun _ => rfl⟩
  | written =>
    refine ⟨ops ++ [op], [], ⟨hsnoc, ht, ?_⟩, fun _ => rfl⟩
    rw [append_nil, opFrames_append, opFrames_singleton, ← hbyt]
    rfl
  | failed bytes setLen seek =>
    cases setLen with
    | true =>
      refine ⟨ops, [], ⟨hops, ht, ?_⟩, fun _ => rfl⟩
      simp only [if_true, DurableFile.write_setLen, append_nil]
      exact hbyt
    | false =>
      -- the bytes stay: a whole frame if all were written before the failure, a torn one if not
      by_cases hn : bytes < (frame op.toBytes).length
      · refine ⟨ops, (frame op.toBytes).take bytes, ⟨hops, .of_take hop.2 hn, ?_⟩, nofun⟩
        rw [← hbyt]
        rfl
      · refine ⟨ops ++ [op], [], ⟨hsnoc, ht, ?_⟩, nofun⟩
        have hall : (frame op.toBytes).take bytes = frame op.toBytes := take_of_length_le (not_lt.1 hn)
        change writer.file.bytes ++ (frame op.toBytes).take bytes = _
        rw [append_nil, opFrames_append, opFrames_singleton, ← hbyt, hall]

theorem Ok.appendAll (h : writer.Ok) {calls : List (SignedOp × WriteOutcome)}
    (hops : ∀ call ∈ calls, Frameable call.1) : (writer.appendAll calls).Ok := by
  induction calls generalizing writer with
  | nil => exact h
  | cons call calls ih =>
    obtain ⟨hcall, hrest⟩ := forall_mem_cons.1 hops
    exact ih (h.append hcall call.2) hrest

end OplogWriter

/-! ## Crash and replay -/

/-- A cut anywhere leaves the first of the whole frames and a torn one. -/
theorem TornFile.take {torn bytes : List Byte} (h : TornFile ops torn bytes) (n : ℕ) :
    ∃ kept torn', TornFile kept torn' (bytes.take n) := by
  obtain ⟨hops, ht, rfl⟩ := h
  obtain ⟨kept, torn', hkept, ht', htake⟩ :=
    take_frames (ops.map toBytes) (short_of_frameable hops) ht n
  obtain ⟨rest, hrest⟩ := hkept
  obtain ⟨kept, more, rfl, rfl, -⟩ := map_eq_append_iff.1 hrest.symm
  exact ⟨kept, torn', fun op hop => hops op (mem_append_left _ hop), ht', htake⟩

theorem replayFrame_toBytes {op : SignedOp} (h : Frameable op) (registry : DeviceRegistry C) (log : OpLog) :
    replayFrame registry log op.toBytes =
      some (if registry.accepts op then (log.append op).1 else log) := by
  unfold replayFrame DeviceRegistry.accepts
  simp only [fromBytes_toBytes h.1]
  cases hk : registry.keyFor op.body.device with
  | none => simp only [Bool.false_eq_true, if_false]
  | some key =>
    cases hv : op.verify C key with
    | error e => simp [hv, Except.isOk, Except.toBool]
    | ok u => simp [hv, Except.isOk, Except.toBool]

theorem foldlM_replayFrame_toBytes (h : ∀ op ∈ ops, Frameable op) (registry : DeviceRegistry C) (log : OpLog) :
    (ops.map toBytes).foldlM (replayFrame registry) log =
      some ((ops.filter registry.accepts).foldl (fun log op => (log.append op).1) log) := by
  induction ops generalizing log with
  | nil => rfl
  | cons op ops ih =>
    obtain ⟨hop, hrest⟩ := forall_mem_cons.1 h
    rw [map_cons, foldlM_cons, replayFrame_toBytes hop]
    refine (ih hrest _).trans ?_
    by_cases ha : registry.accepts op
    · rw [if_pos ha, filter_cons_of_pos ha, foldl_cons]
    · rw [if_neg ha, filter_cons_of_neg ha]

/-- The replay takes the whole frames and cuts the file behind them. -/
theorem TornFile.replay {torn : List Byte} {file : DurableFile} (h : TornFile ops torn file.bytes)
    (registry : DeviceRegistry C) (log : OpLog) :
    (replayOplogFile registry file log).1 =
        (ops.filter registry.accepts).foldl (fun log op => (log.append op).1) log ∧
      (replayOplogFile registry file log).2.bytes = opFrames ops := by
  obtain ⟨hops, ht, hbyt⟩ := h
  have hfuel : (ops.map toBytes).length ≤ file.bytes.length := by
    have := length_le_flatMap_frame (ops.map toBytes)
    rw [hbyt, length_append, opFrames]
    omega
  have hscan : scanFrames (replayFrame registry) file.bytes.length file.bytes log =
      ((ops.filter registry.accepts).foldl (fun log op => (log.append op).1) log, (opFrames ops).length) := by
    nth_rewrite 2 [hbyt]
    exact scanFrames_torn (short_of_frameable hops) ht (foldlM_replayFrame_toBytes hops registry log) hfuel
  refine ⟨by rw [replayOplogFile, hscan], ?_⟩
  rw [replayOplogFile_bytes, validEnd, hscan, hbyt, take_left]

/-! ## Cycles -/

namespace OplogCycle

variable {cycle : OplogCycle C} {file : DurableFile}

def WholeFile (file : DurableFile) : Prop :=
  ∃ ops, (∀ op ∈ ops, ProxyNode.Frameable op) ∧ file.bytes = opFrames ops

theorem WholeFile.opened (h : WholeFile file) : (OplogWriter.openFile file).Ok := by
  obtain ⟨ops, hops, hbyt⟩ := h
  exact ⟨ops, [], ⟨hops, .nil, by rw [append_nil]; exact hbyt⟩, fun _ => rfl⟩

theorem WholeFile.crashed (h : WholeFile file) (hc : cycle.Frameable) :
    ∃ ops torn, TornFile ops torn (cycle.crashed file).bytes := by
  obtain ⟨ops, torn, htorn, -⟩ := h.opened.appendAll hc
  exact htorn.take cycle.cut

theorem WholeFile.replay (h : WholeFile file) (hc : cycle.Frameable) : WholeFile (cycle.replay file).2 := by
  obtain ⟨ops, torn, htorn⟩ := h.crashed hc
  exact ⟨ops, htorn.1, (htorn.replay cycle.registry cycle.log).2⟩

variable {cycles : List (OplogCycle C)}

theorem WholeFile.run (h : WholeFile file) (hc : ∀ c ∈ cycles, c.Frameable) :
    WholeFile (run cycles file) := by
  induction cycles generalizing file with
  | nil => exact h
  | cons cycle cycles ih =>
    obtain ⟨hcycle, hrest⟩ := forall_mem_cons.1 hc
    exact ih (h.replay hcycle) hrest

theorem wholeFile_empty : WholeFile .empty := ⟨[], nofun, rfl⟩

/-! ### One frame through the cycles -/

/-- Whole frames that the bytes start with, the last of them this op's and ending at `stop`. -/
def HasFrame (op : SignedOp) (stop : ℕ) (bytes : List Byte) : Prop :=
  ∃ ops, (∀ o ∈ ops ++ [op], ProxyNode.Frameable o) ∧ opFrames (ops ++ [op]) <+: bytes ∧
    (opFrames (ops ++ [op])).length = stop

variable {op : SignedOp} {stop : ℕ} {bytes : List Byte}

theorem HasFrame.mono {more : List Byte} (h : HasFrame op stop bytes) (hm : bytes <+: more) :
    HasFrame op stop more := by
  obtain ⟨ops, hops, hpre, hstop⟩ := h
  exact ⟨ops, hops, hpre.trans hm, hstop⟩

theorem HasFrame.take (h : HasFrame op stop bytes) {n : ℕ} (hn : stop ≤ n) : HasFrame op stop (bytes.take n) := by
  obtain ⟨ops, hops, hpre, rfl⟩ := h
  refine ⟨ops, hops, ?_, rfl⟩
  obtain ⟨tail, rfl⟩ := hpre
  rw [take_append, take_of_length_le hn]
  exact prefix_append _ _

theorem readable_frames {ops : List SignedOp} (h : ∀ o ∈ ops, ProxyNode.Frameable o) :
    ∀ p ∈ ops.map toBytes, Readable p := by
  intro p hp
  obtain ⟨o, ho, rfl⟩ := mem_map.1 hp
  exact (h o ho).readable

/-- An append that returned `Ok` put its frame behind whole ones. -/
theorem hasFrame_of_append {writer : OplogWriter} (h : writer.Ok) (hop : ProxyNode.Frameable op)
    {outcome : WriteOutcome} (hok : (writer.append op outcome).2 = none) :
    HasFrame op (writer.file.bytes.length + (frame op.toBytes).length)
      (writer.append op outcome).1.file.bytes := by
  have hcln : writer.poisoned = false := by
    by_contra hp
    simp [OplogWriter.append, Bool.not_eq_false _ ▸ hp] at hok
  obtain ⟨ops, torn, ⟨hops, -, hbyt⟩, htorn⟩ := h
  rw [htorn hcln, append_nil] at hbyt
  refine ⟨ops, forall_mem_append.2 ⟨hops, by simpa using hop⟩, ?_, ?_⟩
  · rw [OplogWriter.append_ok hok, opFrames_append, opFrames_singleton, hbyt]
  · rw [opFrames_append, opFrames_singleton, length_append, hbyt]

/-- The frame survives a cycle whose crash cuts behind it. -/
theorem HasFrame.crashed (h : HasFrame op stop file.bytes) (hcut : stop ≤ cycle.cut) :
    HasFrame op stop (cycle.crashed file).bytes :=
  (h.mono (OplogWriter.appendAll_grows (OplogWriter.openFile file) cycle.calls)).take hcut

theorem HasFrame.replay (h : HasFrame op stop (cycle.crashed file).bytes) :
    HasFrame op stop (cycle.replay file).2.bytes := by
  obtain ⟨ops, hops, hpre, rfl⟩ := h
  have hend := (validEnd_ge cycle.registry cycle.log (readable_frames hops) hpre).1
  rw [OplogCycle.replay, replayOplogFile_bytes]
  exact HasFrame.take ⟨ops, hops, hpre, rfl⟩ hend

theorem HasFrame.run (h : HasFrame op stop file.bytes) (hcut : ∀ c ∈ cycles, stop ≤ c.cut) :
    HasFrame op stop (run cycles file).bytes := by
  induction cycles generalizing file with
  | nil => exact h
  | cons cycle cycles ih =>
    obtain ⟨hcycle, hrest⟩ := forall_mem_cons.1 hcut
    exact ih (h.crashed hcycle).replay hrest

/-- A replay over the frame recovers its op, if the registry accepts it. -/
theorem HasFrame.recovered (h : HasFrame op stop (cycle.crashed file).bytes)
    (ha : cycle.registry.accepts op = true) : (cycle.replay file).1.contains op.id = true := by
  obtain ⟨ops, hops, hpre, -⟩ := h
  unfold DeviceRegistry.accepts at ha
  cases hk : cycle.registry.keyFor op.body.device with
  | none => simp [hk] at ha
  | some key =>
    have hv : op.verify C key = .ok () := by
      cases hv : op.verify C key with
      | error e => simp [hk, hv, Except.isOk, Except.toBool] at ha
      | ok u => rfl
    have hheld : HeldIn (Registered cycle.registry) (cycle.crashed file).bytes op.id :=
      ⟨(ops ++ [op]).map toBytes, readable_frames hops, hpre, op.toBytes, by simp, op, key,
      fromBytes_toBytes (hops op (by simp)).1, rfl, registered_of_keyFor hk, hv⟩
    exact hheld.replayed fun _ hkey => hkey

end OplogCycle

open OplogCycle

/-- Over any cycles of appends, crash and replay: a replay takes the ops of the whole frames
before the cut that the registry accepts, in their order, and leaves the file with all of
those frames and nothing else; an appended op comes back at each replay that accepts it for
as long as no crash cuts into its frame. -/
theorem oplog_crash_consistent (before rest : List (OplogCycle C)) (cycle : OplogCycle C)
    (h : ∀ c ∈ before ++ cycle :: rest, c.Frameable) :
    let file := OplogCycle.run before .empty
    (∃ ops : List SignedOp, completeFrames (cycle.crashed file).bytes = ops.map SignedOp.toBytes ∧
      (cycle.replay file).1 =
        (ops.filter cycle.registry.accepts).foldl (fun log op => (log.append op).1) cycle.log ∧
      (cycle.replay file).2.bytes = (ops.map SignedOp.toBytes).flatMap frame) ∧
    ∀ earlier op outcome later, cycle.calls = earlier ++ (op, outcome) :: later →
      let writer := (OplogWriter.openFile file).appendAll earlier
      let stop := writer.file.bytes.length + (frame op.toBytes).length
      (writer.append op outcome).2 = none →
      ∀ between last after, cycle :: rest = between ++ last :: after →
        (∀ c ∈ between ++ [last], stop ≤ c.cut) → last.registry.accepts op = true →
        (last.replay (OplogCycle.run between file)).1.contains op.id = true := by
  intro file
  obtain ⟨hbef, hlives⟩ := List.forall_mem_append.1 h
  have hcycle : cycle.Frameable := hlives cycle List.mem_cons_self
  have hfile : WholeFile file := wholeFile_empty.run hbef
  constructor
  · obtain ⟨ops, torn, htorn⟩ := hfile.crashed hcycle
    obtain ⟨hlog, hbyt⟩ := htorn.replay cycle.registry cycle.log
    refine ⟨ops, ?_, hlog, hbyt⟩
    rw [htorn.2.2]
    exact completeFrames_torn (short_of_frameable htorn.1) htorn.2.1
  · intro earlier op outcome later hcalls writer stop hok between last after hspl hcut ha
    have hwriter : writer.Ok := hfile.opened.appendAll fun call hmem =>
      hcycle call (hcalls ▸ List.mem_append_left _ hmem)
    have hop : ProxyNode.Frameable op := hcycle (op, outcome) (by rw [hcalls]; simp)
    -- the frame is in the file when the first of the crashes comes
    have hfst : stop ≤ cycle.cut → HasFrame op stop (cycle.crashed file).bytes := by
      intro hstop
      refine ((hasFrame_of_append hwriter hop hok).mono ?_).take hstop
      rw [hcalls, OplogWriter.appendAll, List.foldl_append, List.foldl_cons]
      exact OplogWriter.appendAll_grows _ later
    cases between with
    | nil =>
      obtain ⟨rfl, -⟩ := List.cons.inj hspl
      exact (hfst (hcut cycle (by simp))).recovered ha
    | cons c between =>
      obtain ⟨rfl, -⟩ := List.cons.inj hspl
      have hkept := (hfst (hcut cycle (by simp))).replay
      have hlater : ∀ d ∈ between, stop ≤ d.cut := fun d hd => hcut d (by simp [hd])
      exact ((hkept.run hlater).crashed (hcut last (by simp))).recovered ha

/-! ## A torn frame, and what no replay brings back -/

namespace TornTail

def author : Bytes 32 := padTo 32 [7]

def registry : DeviceRegistry plainCrypto := DeviceRegistry.new.insertKey author

def tears : OplogCycle plainCrypto :=
  ⟨[(plainPut author 20, .written), (plainPut author 21, .failed 7 false false)], 1000, registry, .new (fill 32 5)⟩

def goesOn : OplogCycle plainCrypto := ⟨[(plainPut author 22, .written)], 1000, registry, .new (fill 32 5)⟩

def wipes : OplogCycle plainCrypto := ⟨[], 0, registry, .new (fill 32 5)⟩

def forged : SignedOp := { plainPut author 20 with sig := fill 64 0 }

def forges : OplogCycle plainCrypto := ⟨[(forged, .written)], 1000, registry, .new (fill 32 5)⟩

end TornTail

open TornTail in
theorem oplog_crash_consistent_torn :
    (∀ c ∈ [] ++ tears :: [goesOn], c.Frameable) ∧
      (goesOn.replay (OplogCycle.run [tears] .empty)).1.contains (plainPut author 20).id = true := by
  have hframes : ∀ c ∈ [] ++ tears :: [goesOn], c.Frameable := by
    intro c hc
    rcases List.mem_cons.1 hc with rfl | hc
    · unfold OplogCycle.Frameable
      decide +kernel
    · rw [List.mem_singleton.1 hc]
      unfold OplogCycle.Frameable
      decide +kernel
  refine ⟨hframes, ?_⟩
  refine (oplog_crash_consistent [] [goesOn] tears hframes).2 [] _ _ _ rfl rfl [tears] goesOn [] rfl ?_ ?_
  · intro c hc
    have hcut : c.cut = 1000 := by
      rcases List.mem_cons.1 hc with rfl | hc
      · rfl
      · rw [List.mem_singleton.1 hc]
        rfl
    rw [hcut]
    decide +kernel
  · decide +kernel

open TornTail in
/-- An op whose append returned `Ok` and whose frame lay before the cut is lost to a later
crash further in front, and is never recovered if its signature is bad. -/
theorem oplog_append_not_recovered :
    ((OplogWriter.openFile .empty).append (plainPut author 20) .written).2 = none ∧
      (goesOn.replay (OplogCycle.run [tears] .empty)).1.contains (plainPut author 20).id = true ∧
      (wipes.replay (OplogCycle.run [tears, goesOn] .empty)).1.contains (plainPut author 20).id = false ∧
      ((OplogWriter.openFile .empty).append forged .written).2 = none ∧
      registry.contains forged.body.device = true ∧
      completeFrames (forges.crashed .empty).bytes = [forged.toBytes] ∧
      (forges.replay .empty).1.contains forged.id = false := by
  decide +kernel

end ProxyNode
