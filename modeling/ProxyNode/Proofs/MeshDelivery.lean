import ProxyNode.Sanity.Drain
import ProxyNode.Spec.Kv
import ProxyNode.Spec.Mesh

/-! Delivery among several servers. An arrival that the puller's cursor for one server has
passed stays deliverable as long as no other server is asked that holds a later op of its
origin without holding the op itself. Without that the claim one server raises covers an
op that only the other holds. -/

namespace ProxyNode

open Journal OpLogPullSocket List Option SortedMap

variable {H : Host} {limits : PageLimits} {s : Mesh H}

namespace Mesh

def passed (s : Mesh H) : List SignedOp :=
  s.servers.entries.flatMap fun e =>
    match s.puller.cursors.get? e.1 with
    | some cursor => e.2.arrivals.take cursor.after
    | none => []

theorem mem_passed {x : SignedOp} : x ∈ s.passed ↔ Passed s.servers s.puller x := by
  unfold passed
  rw [mem_flatMap]
  constructor
  · rintro ⟨⟨peer, log⟩, he, hx⟩
    cases hc : s.puller.cursors.get? peer with
    | none => rw [hc] at hx; cases hx
    | some cursor =>
      rw [hc] at hx
      exact ⟨peer, log, cursor, get?_eq_some.2 he, hc, hx⟩
  · rintro ⟨peer, log, cursor, hl, hc, hx⟩
    refine ⟨(peer, log), get?_eq_some.1 hl, ?_⟩
    dsimp only
    rwa [hc]

/-- The log of the server asked holds no op above a passed one of the same origin that the puller
still lacks, unless it holds that one too. -/
def NoOvertake (s : Mesh H) (peer : DeviceId) : Prop :=
  ∀ log ∈ (s.servers.get? peer).toList, ∀ x ∈ s.passed, s.puller.log.contains x.id = false →
    s.puller.coverage.covers x.orderKey = false →
    ∀ z ∈ log.arrivals, z.orderKey.device = x.orderKey.device → x.orderKey < z.orderKey →
      ∃ y ∈ log.arrivals, y.orderKey = x.orderKey

instance (s : Mesh H) (peer : DeviceId) : Decidable (s.NoOvertake peer) := by
  unfold NoOvertake
  infer_instance

/-- A run in which every exchange starts in a state without overtaking. -/
def Orderly (limits : PageLimits) : Mesh H → List (MeshEvent H) → Prop
  | _, [] => True
  | s, event :: events =>
    (match event with
      | .exchange peer _ _ _ => s.NoOvertake peer
      | _ => True) ∧ Orderly limits (s.step limits event) events

/-- Every arrival at or below the saved cursor of its server is in the puller's log or
strictly above the claim for its origin. -/
def Delivers (s : Mesh H) : Prop :=
  ∀ peer log cursor, s.servers.get? peer = some log → s.puller.cursors.get? peer = some cursor →
    ∀ seq op, seq ≤ cursor.after → 0 < seq → log.arrivals[seq - 1]? = some op →
      s.puller.log.contains op.id = true ∨ s.puller.coverage.covers op.orderKey = false

theorem delivers_of_deliverable (h : Deliverable s.servers s.puller) : s.Delivers := by
  intro peer log cursor hl hc seq op hle hpos hop
  cases hcov : s.puller.coverage.covers op.orderKey with
  | false => exact .inr rfl
  | true =>
    refine .inl (h op ⟨peer, log, cursor, hl, hc, ?_⟩ hcov)
    refine mem_of_getElem? (i := seq - 1) ?_
    rw [getElem?_take, if_pos (by omega), hop]

end Mesh

/-! ## The invariant -/

/-- The locals of a drain are backed by the socket: its cursor is saved, its resume token
points at nothing beyond the claims or the cursor. -/
structure DrainBacked (p : OpLogPullSocket H) (peer : DeviceId) (d : DrainState) : Prop where
  cursor : ∀ c, d.cursor = some c → Saved p peer c
  resume : ResumeCovered p.coverage d.resume
  backfill : ∀ n o k, d.resume = some ⟨.backfill, n, o, k⟩ → n ≤ (d.cursor.map RelayCursor.after).getD 0

def CursorsFit (servers : SortedMap DeviceId OpLog) (p : OpLogPullSocket H) : Prop :=
  ∀ peer log c, servers.get? peer = some log → p.cursors.get? peer = some c →
    c.epoch = log.relayEpoch ∧ c.after ≤ log.arrivals.length

structure MeshInv (s : Mesh H) : Prop where
  deliverable : Deliverable s.servers s.puller
  cursors : CursorsFit s.servers s.puller
  drains : ∀ peer d, s.drains.get? peer = some d → DrainBacked s.puller peer d

section Drains

variable {p : OpLogPullSocket H} {peer : DeviceId} {d : DrainState} {log : OpLog}
  {servers : SortedMap DeviceId OpLog}

theorem DrainBacked.fits (h : DrainBacked p peer d) (hc : CursorsFit servers p)
    (hlog : servers.get? peer = some log) : DrainFits log p d := by
  refine ⟨fun c hcur => ?_, h.resume, h.backfill⟩
  obtain ⟨saved, hget, hep, hle⟩ := h.cursor c hcur
  obtain ⟨h1, h2⟩ := hc peer log saved hlog hget
  exact ⟨hep ▸ h1, hle.trans h2⟩

theorem DrainBacked.kept (h : DrainBacked p peer d) (hd : Deliverable servers p)
    (hlog : servers.get? peer = some log) : Kept (· ∈ log.arrivals.take (d.current log).after) p := by
  rw [d.current_after]
  cases hc : d.cursor with
  | none => exact fun x hx => by simp at hx
  | some c =>
    obtain ⟨saved, hget, -, hle⟩ := h.cursor c hc
    exact hd.mono fun x hx => ⟨peer, log, saved, hlog, hget, take_subset_take_left _ hle hx⟩

/-- A drain with another peer does not notice the effects of an exchange. -/
theorem DrainBacked.after (h : DrainBacked p peer d) {es : List (Effect H)}
    (hcur : (p.after es).cursors.get? peer = p.cursors.get? peer) : DrainBacked (p.after es) peer d := by
  refine ⟨fun c hc => ?_, fun r o k hr ho hk => ?_, h.backfill⟩
  · obtain ⟨saved, hget, hs⟩ := h.cursor c hc
    exact ⟨saved, hcur.trans hget, hs⟩
  · obtain ⟨h1, h2⟩ := h.resume r o k hr ho hk
    exact ⟨h1, after_covers h2 es⟩

end Drains

/-! ## Exchanges -/

section Exchange

variable {p : OpLogPullSocket H} {peer : DeviceId} {d : DrainState} {log : OpLog}
  {servers : SortedMap DeviceId OpLog} {m : Moment}

/-- Without overtaking, the page of an honest node fits the puller. -/
theorem pageFits_of_shape {now : ℤ} {page : PullPage} {segs : List Segment} (hfits : DrainFits log p d)
    (hkey : page.keyed = segmentEntries segs)
    (hshp : ServedPage (.atomic log) peer (drainRequest limits p d false now) page segs)
    (hno : ∀ x, Passed servers p x → p.log.contains x.id = false → p.coverage.covers x.orderKey = false →
      ∀ z ∈ log.arrivals, z.orderKey.device = x.orderKey.device → x.orderKey < z.orderKey →
        ∃ y ∈ log.arrivals, y.orderKey = x.orderKey) :
    PageFits log (fun x => Passed servers p x ∨
      x ∈ log.arrivals.take (max (d.current log).after page.nextRelaySeq)) p (d.current log).after page := by
  constructor
  · obtain ⟨start, k, hstart, hnext, -, hback⟩ := hshp.scan
    refine ⟨start, k, ?_, hnext, hback⟩
    rw [d.current_after]
    rcases hstart with rfl | ⟨o, key, hres⟩
    · exact le_rfl
    · exact hfits.backfill start o key hres
  · refine ⟨segs, hkey, hshp.sorted, hshp.visit, fun seg hseg => ?_⟩
    obtain ⟨-, n, hn⟩ := hshp.segment hseg
    have hsafe := segmentSafe_of_read (fun x => Passed servers p x ∨
        x ∈ log.arrivals.take (max (d.current log).after page.nextRelaySeq)) p log seg.1
      (readAfter p.coverage false d.resume seg.1) n
      (fun x hx hd b hb => readAfter_lt hfits.resume hx (hd ▸ hb))
      (fun x hx hd hcov hin z hz hlt => by
        rcases hx with hx | hx
        · obtain ⟨hz, hzd, -⟩ := OpLog.mem_originOps.1 (mem_of_mem_take hz)
          exact hno x hx hin hcov z hz (hzd.trans hd.symm) hlt
        · exact ⟨x, mem_of_mem_take hx, rfl⟩)
    have heq : seg = (seg.1, (log.originOps seg.1 (readAfter p.coverage false d.resume seg.1)).take n) :=
      Prod.ext rfl hn
    rw [heq]
    exact hsafe

/-- One request of a drain with an honest node: the invariant holds behind each effect,
only this peer's cursor moves, and it stays inside the log. -/
theorem drainStep_deliverable (hd : Deliverable servers p) (hcur : CursorsFit servers p)
    (hb : DrainBacked p peer d) (hlog : servers.get? peer = some log) (hm : m.answer = serveLog limits peer log)
    (hno : ∀ x, Passed servers p x → p.log.contains x.id = false → p.coverage.covers x.orderKey = false →
      ∀ z ∈ log.arrivals, z.orderKey.device = x.orderKey.device → x.orderKey < z.orderKey →
        ∃ y ∈ log.arrivals, y.orderKey = x.orderKey)
    {es : List (Effect H)} {next : DrainNext} (hres : drainStep limits peer false false m p d = (es, next)) :
    Along perform (Deliverable servers) p es ∧
    (∀ e ∈ es, e.SavesWithin peer log.relayEpoch log.arrivals.length) ∧
    ∀ d', next = .again d' → DrainBacked (p.after es) peer d' := by
  have hfits := hb.fits hcur hlog
  obtain ⟨page, segs, hdata, hkey, hshp, hstep⟩ := drainStep_honest hfits hm false false
  obtain ⟨quiet, hq, heff⟩ := drainApply_effects false limits peer m p d page
  rw [hstep] at hres
  obtain rfl : (drainApply limits peer false m p d page).1 = es := congrArg Prod.fst hres
  obtain rfl : (drainApply limits peer false m p d page).2 = next := congrArg Prod.snd hres
  have hpage := applyPullPage_deliverable hlog hd (d.current_after log).symm (hb.kept hd hlog)
    (pageFits_of_shape hfits hkey hshp hno)
  obtain ⟨start, k, -, hnext, -, hback⟩ := hshp.scan
  have hle : ∀ e ∈ coveredArrivals p.coverage ((log.arrivals.drop start).take k) start,
      e.1 ≤ page.nextRelaySeq := fun e he => hnext ▸ coveredArrivals_le he
  have hbd : max (d.current log).after page.nextRelaySeq ≤ log.arrivals.length :=
    max_le hfits.current.2 (PageShape.next_le hfits hshp)
  rw [heff]
  refine ⟨along_append_iff.2 ⟨hpage, along_of_step (after_of_along hpage) fun e he _ ht =>
    deliverable_quiet ht (hq e he)⟩, fun e he => ?_, fun d' hagain => ?_⟩
  · rcases mem_append.1 he with he | he
    · rw [applyPullPage_fits hfits hdata] at he
      have hw := applyChannels_savesWithin false hback hle e he
      rw [hfits.current.1] at hw
      exact hw.mono hbd
    · exact (hq e he).savesWithin _ _ _
  · obtain ⟨⟨n, hok⟩, hcursor, hresm⟩ := drainApply_again hagain
    rw [applyPullPage_fits hfits hdata] at hok hcursor ⊢
    obtain ⟨hc, hsav, -, hsegs⟩ := applyChannels_ok hback hle hkey hshp.sorted hshp.visit rfl hok
    generalize hqdef : p.after (applyChannels p peer (d.current log) page false).effects = q
    rw [hqdef] at hsav hsegs
    rw [after_append, hqdef]
    obtain ⟨hqcov, hqcur⟩ := OpLogPullSocket.after_quiet (p := q) hq
    rw [hc] at hcursor
    refine ⟨fun c hc' => ?_, ?_, fun i o key hr => ?_⟩
    · obtain rfl := some.inj (hcursor.symm.trans hc')
      rwa [Saved, hqcur]
    · rw [hqcov]
      rcases hresm with hr | ⟨-, hr⟩
      · rw [hr]
        exact fun _ _ _ h => by cases h
      · rw [hr]
        exact hshp.resumeCovered fun s hs op hop => (hsegs s hs op hop).2
    · rw [hcursor]
      rcases hresm with h | ⟨-, h⟩
      · rw [h] at hr
        cases hr
      · rw [h] at hr
        rcases hshp.resume hr with ⟨s, -, hs, -⟩ | ⟨hs, -⟩
        · cases hs
        · obtain rfl : i = page.nextRelaySeq := congrArg Resume.afterSeq hs
          exact le_max_right _ _

end Exchange

/-! ## Steps and runs -/

theorem MeshInv.append (h : MeshInv s) (peer : DeviceId) (op : SignedOp) : MeshInv (s.append peer op) := by
  unfold Mesh.append
  cases hl : s.servers.get? peer with
  | none => exact h
  | some log =>
    have hgrow : ∀ peer' log', (s.servers.insert peer (log.append op).1).get? peer' = some log' →
        ∃ old, s.servers.get? peer' = some old ∧ old.Extends log' := by
      intro peer' log' h'
      rw [get?_insert] at h'
      split_ifs at h' with hp
      · obtain rfl := some.inj h'
        exact ⟨log, hp ▸ hl, log.extends_append op⟩
      · exact ⟨log', h', .refl _⟩
    refine ⟨?_, ?_, h.drains⟩
    · -- what a cursor has passed lies inside the old log
      refine Kept.mono h.deliverable ?_
      rintro x ⟨peer', log', cursor, hl', hc, hx⟩
      obtain ⟨old, hold, hext⟩ := hgrow peer' log' hl'
      rw [hext.take (h.cursors peer' old cursor hold hc).2] at hx
      exact ⟨peer', old, cursor, hold, hc, hx⟩
    · intro peer' log' c hl' hc
      obtain ⟨old, hold, hext⟩ := hgrow peer' log' hl'
      obtain ⟨h1, h2⟩ := h.cursors peer' old c hold hc
      exact ⟨h1.trans hext.epoch.symm, h2.trans hext.arrivals.length_le⟩

theorem MeshInv.start (h : MeshInv s) (peer : DeviceId) (saved : Bool) : MeshInv (s.start peer saved) := by
  refine ⟨h.deliverable, h.cursors, fun peer' d hd => ?_⟩
  simp only [Mesh.start, get?_insert] at hd
  split_ifs at hd with hp hs
  · subst hp
    obtain rfl := some.inj hd
    exact ⟨fun c hc => ⟨c, hc, rfl, le_rfl⟩, nofun, nofun⟩
  · obtain rfl := some.inj hd
    exact ⟨nofun, nofun, nofun⟩
  · exact h.drains peer' d hd

/-- Effects that keep delivery and save within one server's log keep the rest. -/
theorem MeshInv.after {peer : DeviceId} {log : OpLog} (h : MeshInv s) (hlog : s.servers.get? peer = some log)
    {es : List (Effect H)} (hd : Deliverable s.servers (s.puller.after es))
    (hw : ∀ e ∈ es, e.SavesWithin peer log.relayEpoch log.arrivals.length)
    {drains : SortedMap DeviceId DrainState} (hdrains : ∀ peer' d, drains.get? peer' = some d →
      (peer' ≠ peer ∧ s.drains.get? peer' = some d) ∨ DrainBacked (s.puller.after es) peer' d) :
    MeshInv { s with puller := s.puller.after es, drains := drains } := by
  refine ⟨hd, fun peer' log' c hl hc => ?_, fun peer' d hd' => ?_⟩
  · by_cases hp : peer' = peer
    · subst hp
      obtain rfl : log = log' := some.inj (hlog.symm.trans hl)
      exact after_cursors_within hw (fun c hc => h.cursors peer' log c hlog hc) hc
    · rw [after_cursors_other hw hp] at hc
      exact h.cursors peer' log' c hl hc
  · rcases hdrains peer' d hd' with ⟨hp, hold⟩ | hnew
    · exact (h.drains peer' d hold).after (after_cursors_other hw hp)
    · exact hnew

theorem MeshInv.exchange (h : MeshInv s) {peer : DeviceId} (hno : s.NoOvertake peer) (now : ℕ)
    (preview : PullRequest → PullAnswer) (stop : Option ℕ) :
    MeshInv (s.exchange limits peer now preview stop) := by
  unfold Mesh.exchange
  cases hlog : s.servers.get? peer with
  | none => exact h
  | some log =>
    cases hdr : s.drains.get? peer with
    | none => exact h
    | some d =>
      generalize hres :
        drainStep limits peer false false ⟨now, serveLog limits peer log, preview⟩ s.puller d = r
      obtain ⟨es, next⟩ := r
      obtain ⟨halong, hw, hback⟩ := drainStep_deliverable h.deliverable h.cursors (h.drains peer d hdr) hlog
        rfl (fun x hx => hno log (by simp [hlog]) x (Mesh.mem_passed.2 hx)) hres
      have herase : ∀ (p : OpLogPullSocket H) peer' d', (s.drains.erase peer).get? peer' = some d' →
          (peer' ≠ peer ∧ s.drains.get? peer' = some d') ∨ DrainBacked p peer' d' := by
        intro p peer' d' hd'
        rw [get?_erase] at hd'
        split_ifs at hd' with hp
        exact .inl ⟨hp, hd'⟩
      simp only [hres]
      cases stop with
      | some n =>
        exact h.after hlog (halong n) (fun e he => hw e (mem_of_mem_take he)) (herase _)
      | none =>
        refine h.after hlog (after_of_along halong) hw fun peer' d' hd' => ?_
        cases next with
        | done cursor result => exact herase _ peer' d' hd'
        | again d'' =>
          rw [Mesh.endDrain, get?_insert] at hd'
          split_ifs at hd' with hp
          · subst hp
            obtain rfl := some.inj hd'
            exact .inr (hback _ rfl)
          · exact .inl ⟨hp, hd'⟩

theorem MeshInv.run (h : MeshInv s) {events : List (MeshEvent H)} (ho : s.Orderly limits events) :
    MeshInv (s.run limits events) := by
  induction events generalizing s with
  | nil => exact h
  | cons event events ih =>
    obtain ⟨hsafe, ho⟩ := ho
    refine ih ?_ ho
    cases event with
    | append peer op => exact h.append peer op
    | learnKey key => exact ⟨h.deliverable, h.cursors, fun peer d hd => ⟨(h.drains peer d hd).cursor,
        (h.drains peer d hd).resume, (h.drains peer d hd).backfill⟩⟩
    | tick clock => exact ⟨h.deliverable, h.cursors, fun peer d hd => ⟨(h.drains peer d hd).cursor,
        (h.drains peer d hd).resume, (h.drains peer d hd).backfill⟩⟩
    | start peer saved => exact h.start peer saved
    | exchange peer now preview stop => exact h.exchange hsafe now preview stop

/-- From a puller that has saved no cursor, every orderly run delivers. -/
theorem mesh_delivers (limits : PageLimits) (s : Mesh H) (hc : s.puller.cursors = ∅) (hd : s.drains = ∅)
    (events : List (MeshEvent H)) (ho : s.Orderly limits events) : (s.run limits events).Delivers := by
  refine Mesh.delivers_of_deliverable (MeshInv.run ?_ ho).deliverable
  refine ⟨?_, ?_, ?_⟩
  · rintro x ⟨peer, log, cursor, -, hcur, -⟩
    simp [hc] at hcur
  · intro peer log c _ hcur
    simp [hc] at hcur
  · intro peer d hdr
    simp [hd] at hdr

/-! ## A key learned late

One server holds an op of a device whose key the puller does not know yet; the drain
fails behind its cursor commit. Once the key is there, a second server answers with a
later op of the device. -/

namespace LateKey

def author : Bytes 32 := padTo 32 [7]

def mesh (second : List SignedOp) : Mesh plainHost where
  puller := plainPuller []
  servers := ((∅ : SortedMap DeviceId OpLog).insert (Wire.fill 32 1) (plainLog [plainPut author 10])).insert
    (Wire.fill 32 2) (plainLog second)
  drains := ∅

def silent : PullRequest → PullAnswer := fun _ => .transport ""

def events : List (MeshEvent plainHost) :=
  [.start (Wire.fill 32 1) true, .exchange (Wire.fill 32 1) 0 silent none, .learnKey author,
    .start (Wire.fill 32 2) true, .exchange (Wire.fill 32 2) 0 silent none]

end LateKey

open LateKey in
/-- A second server that holds the first op as well keeps it deliverable. -/
theorem mesh_delivers_both_ops :
    (mesh [plainPut author 10, plainPut author 20]).Orderly .shipped events ∧
      ((mesh [plainPut author 10, plainPut author 20]).run .shipped events).Delivers := by
  have ho : (mesh [plainPut author 10, plainPut author 20]).Orderly .shipped events :=
    ⟨trivial, by decide +kernel, trivial, trivial, by decide +kernel, trivial⟩
  exact ⟨ho, mesh_delivers .shipped _ rfl rfl events ho⟩

open LateKey in
/-- A second server that holds only the later op buries the first one: the cursor of
server 1 has passed it, the claim covers it and the log lacks it. -/
theorem mesh_buries_op :
    (mesh [plainPut author 20]).puller.cursors = ∅ ∧ (mesh [plainPut author 20]).drains = ∅ ∧
      ¬ ((mesh [plainPut author 20]).run .shipped events).Delivers := by
  refine ⟨rfl, rfl, fun h => ?_⟩
  generalize hs : (mesh [plainPut author 20]).run .shipped events = s
  have hlog : (s.servers.get? (Wire.fill 32 1)).map OpLog.arrivals = some [plainPut author 10] := by
    subst hs
    decide +kernel
  have hcur : (s.puller.cursors.get? (Wire.fill 32 1)).map RelayCursor.after = some 1 := by
    subst hs
    decide +kernel
  have hstate : s.puller.log.contains (plainPut author 10).id = false ∧
      s.puller.coverage.covers (plainPut author 10).orderKey = true := by
    subst hs
    decide +kernel
  obtain ⟨log, hlog, harr⟩ := Option.map_eq_some_iff.1 hlog
  obtain ⟨cursor, hcur, haft⟩ := Option.map_eq_some_iff.1 hcur
  rcases (hs ▸ h) _ log cursor hlog hcur 1 (plainPut author 10) haft.ge Nat.one_pos
    (by rw [harr]; rfl) with h | h
  · exact Bool.false_ne_true (hstate.1.symm.trans h)
  · exact Bool.false_ne_true (h.symm.trans hstate.2)

end ProxyNode
