import ProxyNode.Sanity.Durability
import ProxyNode.Sanity.RelayPage

/-! One relay pull keeps the daemon's invariant at its end, and the disk's at every point
between two effects. A cursor moves over the part of the page whose ops are in the log, and
only once the file is synced. -/

namespace ProxyNode

open Wire Journal List

variable {H : Host} {own : H.crypto.Key} {streams : Streams} {node : Node H}

/-! ## The writer -/

variable {op : SignedOp}

/-- A failed append leaves the file as it was, or a torn frame behind a poisoned writer. -/
theorem NodeOk.writerFails (h : NodeOk own streams node) {outcome : WriteOutcome} {e : String}
    (hw : (node.writerAppend op outcome).2 = some e) :
    Along Node.perform (DiskOk own streams) node (node.writerAppend op outcome).1 ∧
      NodeOk own streams (node.after (node.writerAppend op outcome).1) ∧
      (node.after (node.writerAppend op outcome).1).daemon.links = node.daemon.links ∧
      (node.after (node.writerAppend op outcome).1).daemon.log = node.daemon.log := by
  have hd := h.diskOk
  have hnone : Along Node.perform (DiskOk own streams) node [] ∧ NodeOk own streams (node.after []) ∧
      (node.after []).daemon.links = node.daemon.links ∧ (node.after []).daemon.log = node.daemon.log :=
    ⟨along_nil.2 hd, h, rfl, rfl⟩
  unfold Node.writerAppend at hw ⊢
  split_ifs at hw ⊢ with hp
  · exact hnone
  · cases outcome with
    | noMetadata => exact hnone
    | written => simp at hw
    | failed bytes setLen seek =>
      have htorn : DiskOk own streams (node.perform (.disk (.write ((frame op.toBytes).take bytes)))) :=
        hd.oplog (by rw [DurableFile.write_durable])
      have hundo : (node.perform (.disk (.write ((frame op.toBytes).take bytes)))).perform
          (.disk (.setLen node.disk.oplog.bytes.length)) = node := by
        simp only [Node.perform, Disk.perform, DurableFile.write_setLen]
      have hpoison : ∀ oplog : DurableFile, oplog.durable = node.disk.oplog.durable →
          node.disk.oplog.bytes <+: oplog.bytes → NodeOk own streams
            ⟨{ node.disk with oplog := oplog }, { node.daemon with poisoned := true }⟩ := fun oplog hdur hpre =>
        h.oplog (fun i hi => by rw [hdur]; exact hi) (fun _ => id)
          (fun i hi => (h.filed i hi).mono (fun _ => id) hpre) (fun hf => by cases hf)
      cases setLen with
      | false =>
        refine ⟨along_cons.2 ⟨hd, along_cons.2 ⟨htorn, along_nil.2 htorn⟩⟩, ?_, rfl, rfl⟩
        exact hpoison _ (DurableFile.write_durable _ _) (prefix_append _ _)
      | true =>
        cases seek with
        | true =>
          refine ⟨along_cons.2 ⟨hd, along_cons.2 ⟨htorn, along_nil.2 ?_⟩⟩, ?_, rfl, rfl⟩
          · rwa [hundo]
          · have hok := h
            rwa [← hundo] at hok
        | false =>
          have hok := hpoison node.disk.oplog rfl (prefix_refl _)
          change NodeOk own streams (node.perform .poison) at hok
          rw [← hundo] at hok
          refine ⟨along_cons.2 ⟨hd, along_cons.2 ⟨htorn, along_cons.2 ⟨?_, along_nil.2 hok.diskOk⟩⟩⟩, hok, rfl,
            rfl⟩
          rwa [hundo]

theorem writerAppend_written {outcome : WriteOutcome} (hw : (node.writerAppend op outcome).2 = none) :
    node.daemon.poisoned = false ∧
      (node.writerAppend op outcome).1 = [.disk (.write (frame op.toBytes))] := by
  unfold Node.writerAppend at hw ⊢
  split_ifs at hw ⊢ with hp
  cases outcome with
  | noMetadata => simp at hw
  | written => exact ⟨by simpa using hp, rfl⟩
  | failed bytes setLen seek => simp at hw

theorem NodeOk.appended (h : NodeOk own streams node) {key : H.crypto.Key} (hp : node.daemon.poisoned = false)
    (hv : op.body.v = envelopeVersion) (hlen : op.toBytes.length < 2 ^ 32)
    (hkey : node.daemon.registry.keyFor op.body.device = some key) (hver : op.verify H.crypto key = .ok ()) :
    Along Node.perform (DiskOk own streams) node [.disk (.write (frame op.toBytes)), .append op] ∧
      NodeOk own streams (node.after [.disk (.write (frame op.toBytes)), .append op]) := by
  obtain ⟨payloads, hr, hb⟩ := h.whole hp
  have hread : ∀ p ∈ payloads ++ [op.toBytes], Readable p := by
    intro p hmem
    rcases mem_append.1 hmem with hmem | hmem
    · exact hr p hmem
    · rw [mem_singleton.1 hmem]
      exact ⟨hlen, op, SignedOp.fromBytes_toBytes hv⟩
  have hbyt : node.disk.oplog.bytes ++ frame op.toBytes = (payloads ++ [op.toBytes]).flatMap frame := by
    rw [flatMap_append, flatMap_singleton, hb]
  have hend : NodeOk own streams (node.after [.disk (.write (frame op.toBytes)), .append op]) := by
    refine h.oplog (fun i hi => ?_) (fun i hi => ?_) (fun i hi => ?_) fun _ => ⟨_, hread, hbyt⟩
    · rw [DurableFile.write_durable]
      exact hi
    · exact OpLog.contains_append.2 (.inl hi)
    · rcases OpLog.contains_append.1 hi with hi | rfl
      · exact (h.filed i hi).mono (fun _ => id) (prefix_append _ _)
      · exact ⟨_, hread, by rw [← hbyt]; exact prefix_refl _, op.toBytes,
          mem_append_right _ (mem_singleton_self _), op, key, SignedOp.fromBytes_toBytes hv, rfl,
          h.keys _ key hkey, hver⟩
  have hw : DiskOk own streams (node.perform (.disk (.write (frame op.toBytes)))) :=
    h.diskOk.oplog (by rw [DurableFile.write_durable])
  exact ⟨along_cons.2 ⟨h.diskOk, along_cons.2 ⟨hw, along_nil.2 hend.diskOk⟩⟩, hend⟩

/-! ## One pull -/

def lastSeq (entries : List RelayOp) (after : ℕ) : ℕ := (entries.getLast?.map RelayOp.seq).getD after

theorem lastSeq_cons (entry : RelayOp) (entries : List RelayOp) (after : ℕ) :
    lastSeq (entry :: entries) after = lastSeq entries entry.seq := by
  rw [lastSeq, lastSeq, getLast?_cons, Option.map_some, Option.getD_some]
  cases entries.getLast? <;> rfl

/-- What the loop over a page leaves behind: the invariant, and a prefix of the page that
it went through and whose ops are in the log. -/
structure LoopOk (own : H.crypto.Key) (streams : Streams) (node : Node H) (entries : List RelayOp)
    (after : ℕ) (loop : Node.RelayLoop H) : Prop where
  along : Along Node.perform (DiskOk own streams) node loop.effects
  final : NodeOk own streams (node.after loop.effects)
  links : (node.after loop.effects).daemon.links = node.daemon.links
  grew : node.daemon.log.Extends (node.after loop.effects).daemon.log
  reached : ∃ k, loop.after = lastSeq (entries.take k) after ∧
    ∀ entry ∈ entries.take k, (node.after loop.effects).daemon.log.contains entry.op.id = true

variable {entries : List RelayOp} {after : ℕ}

variable {effects : List (NodeEffect H)}

theorem LoopOk.stop {received appended : ℕ} {abort : Option String}
    (ha : Along Node.perform (DiskOk own streams) node effects) (hf : NodeOk own streams (node.after effects))
    (hl : (node.after effects).daemon.links = node.daemon.links)
    (hg : (node.after effects).daemon.log = node.daemon.log) :
    LoopOk own streams node entries after ⟨effects, after, received, appended, abort⟩ :=
  ⟨ha, hf, hl, hg ▸ .refl _, 0, by simp [lastSeq], by simp⟩

theorem LoopOk.next {entry : RelayOp} {loop loop' : Node.RelayLoop H}
    (ha : Along Node.perform (DiskOk own streams) node effects)
    (hl : (node.after effects).daemon.links = node.daemon.links)
    (hg : node.daemon.log.Extends (node.after effects).daemon.log)
    (hin : (node.after effects).daemon.log.contains entry.op.id = true)
    (h : LoopOk own streams (node.after effects) entries entry.seq loop)
    (he : loop'.effects = effects ++ loop.effects) (hs : loop'.after = loop.after) :
    LoopOk own streams node (entry :: entries) after loop' := by
  have haft : node.after loop'.effects = (node.after effects).after loop.effects := by
    rw [he, Node.after, foldl_append]
    rfl
  obtain ⟨k, hk, hmem⟩ := h.reached
  refine ⟨?_, haft ▸ h.final, ?_, ?_, k + 1, ?_, ?_⟩
  · rw [he]
    exact along_append.2 ⟨ha, h.along⟩
  · rw [haft, h.links, hl]
  · rw [haft]
    exact hg.trans h.grew
  · rw [hs, hk, take_succ_cons, lastSeq_cons]
  · rw [take_succ_cons, haft]
    exact forall_mem_cons.2 ⟨h.grew.contains hin, hmem⟩

theorem relayLoop_ok (h : NodeOk own streams node) (writes : ℕ → WriteOutcome) (after : ℕ)
    (hfit : ∀ entry ∈ entries, entry.op.body.v = envelopeVersion ∧ entry.op.toBytes.length < 2 ^ 32) :
    LoopOk own streams node entries after (Node.relayLoop writes entries node after) := by
  induction entries generalizing node after with
  | nil => exact .stop (along_nil.2 h.diskOk) h rfl rfl
  | cons entry entries ih =>
    obtain ⟨seq, op⟩ := entry
    obtain ⟨⟨hv, hlen⟩, hrest⟩ := forall_mem_cons.1 hfit
    have hnone : ∀ e, LoopOk own streams node (⟨seq, op⟩ :: entries) after ⟨[], after, 0, 0, some e⟩ := fun e =>
      .stop (along_nil.2 h.diskOk) h rfl rfl
    rw [Node.relayLoop]
    split
    · exact hnone _
    rename_i key hkey
    split
    · exact hnone _
    rename_i hver
    split
    · exact hnone _
    rename_i clock hclock
    have hc := h.clock clock
    have hclk : Along Node.perform (DiskOk own streams) node [.clock clock] :=
      along_cons.2 ⟨h.diskOk, along_nil.2 hc.diskOk⟩
    split_ifs with hin
    · exact .next hclk rfl (.refl _) hin (ih hc seq hrest) rfl rfl
    · -- the writer reads neither the clock nor the log
      have hsame : node.writerAppend op (writes seq) =
          (node.perform (.clock clock)).writerAppend op (writes seq) := rfl
      simp only
      rw [hsame]
      split
      · rename_i e hw
        obtain ⟨ha, hf, hl, hg⟩ := hc.writerFails hw
        exact .stop (along_cons.2 ⟨h.diskOk, ha⟩) hf hl hg
      · rename_i hw
        obtain ⟨hp, heff⟩ := writerAppend_written hw
        obtain ⟨ha, hf⟩ := hc.appended hp hv hlen hkey hver
        rw [heff]
        exact .next (along_cons.2 ⟨h.diskOk, ha⟩) rfl (node.daemon.log.extends_append op)
          (OpLog.contains_append.2 (.inr rfl)) (ih hf seq hrest) rfl rfl

theorem lastSeq_zipIdx (ops : List SignedOp) (after : ℕ) :
    lastSeq ((ops.zipIdx after).map fun e => ⟨e.2 + 1, e.1⟩) after = after + ops.length := by
  induction ops generalizing after with
  | nil => rfl
  | cons op ops ih =>
    rw [zipIdx_cons, map_cons, lastSeq_cons, ih, length_cons]
    omega

/-- A prefix of a page is a stretch of the arrivals behind the cursor. -/
theorem relayEntries_take (server : OpLog) (after limit k : ℕ) :
    ∃ m, lastSeq ((relayEntries server after limit).take k) after = after + m ∧
      m ≤ server.arrivals.length - after ∧
      ((relayEntries server after limit).take k).map RelayOp.op = (server.arrivals.drop after).take m := by
  refine ⟨min (min k limit) (server.arrivals.length - after), ?_, min_le_right _ _, ?_⟩
  · rw [relayEntries, ← map_take, take_zipIdx, lastSeq_zipIdx, take_take, length_take,
      length_drop]
  · rw [relayEntries, ← map_take, take_zipIdx, map_map, take_take,
      ← length_drop, ← take_eq_take_min]
    exact zipIdx_map_fst _ _

variable {peer : DeviceId} {cursor : RelayCursor} {server : OpLog} {P : OpId → Prop}

/-- A cursor the server answers without a reset has all its ops in the stream. -/
theorem Vouches.answered (hs : StreamsOk streams) (hv : Vouches streams peer cursor P)
    (hsrv : streams.servers.get? peer = some server)
    (hneeds : relayNeedsReset cursor.epoch cursor.after server.relayState = false) :
    cursor.after ≤ server.arrivals.length ∧ ∀ op ∈ server.arrivals.take cursor.after, P op.id := by
  by_cases he : cursor.epoch = server.relayEpoch
  · exact hv.within server hsrv he
  · have hz : cursor.epoch = zeroEpoch := by
      by_contra hz
      simp [relayNeedsReset, OpLog.relayState, he, hz] at hneeds
    rcases hv.drawn with rfl | hdrawn
    · simp [RelayCursor.start]
    · exact absurd hz (hs.nonzero _ hdrawn)

theorem Vouches.advance {m : ℕ} (hs : StreamsOk streams) (hv : Vouches streams peer cursor P)
    (hsrv : streams.servers.get? peer = some server)
    (hneeds : relayNeedsReset cursor.epoch cursor.after server.relayState = false)
    (hm : m ≤ server.arrivals.length - cursor.after)
    (hops : ∀ op ∈ (server.arrivals.drop cursor.after).take m, P op.id) :
    Vouches streams peer ⟨server.relayEpoch, cursor.after + m⟩ P := by
  obtain ⟨hle, hold⟩ := hv.answered hs hsrv hneeds
  refine ⟨.inr (hs.drawn peer server hsrv), fun server' hsrv' _ => ?_⟩
  obtain rfl := Option.some.inj (hsrv.symm.trans hsrv')
  refine ⟨by simp only; omega, fun op hop => ?_⟩
  rw [take_add, mem_append] at hop
  exact hop.elim (hold op) (hops op)

variable {limit : ℕ}

/-- The cursor behind the part of a page the loop went through. -/
theorem Vouches.behind {k : ℕ} (hs : StreamsOk streams) (hv : Vouches streams peer cursor P)
    (hsrv : streams.servers.get? peer = some server)
    (hneeds : relayNeedsReset cursor.epoch cursor.after server.relayState = false)
    (hgain : ∀ entry ∈ (relayEntries server cursor.after limit).take k,
      lastSeq ((relayEntries server cursor.after limit).take k) cursor.after ≠ cursor.after → P entry.op.id) :
    Vouches streams peer
      ⟨server.relayEpoch, lastSeq ((relayEntries server cursor.after limit).take k) cursor.after⟩ P := by
  obtain ⟨m, hm, hmle, hmops⟩ := relayEntries_take server cursor.after limit k
  rw [hm] at hgain ⊢
  refine hv.advance hs hsrv hneeds hmle fun op hop => ?_
  have hne : cursor.after + m ≠ cursor.after := by
    intro hsame
    obtain rfl : m = 0 := by omega
    simp at hop
  rw [← hmops] at hop
  obtain ⟨entry, hent, rfl⟩ := mem_map.1 hop
  exact hgain entry hent hne

/-- Entries of a page are ops of the server, so they fit a frame. -/
theorem relayEntries_fit (hs : StreamsOk streams) (hsrv : streams.servers.get? peer = some server)
    {entry : RelayOp} (h : entry ∈ relayEntries server after limit) : entry.op.toBytes.length < 2 ^ 32 := by
  refine hs.fits _ server hsrv _ ?_
  rw [relayEntries] at h
  obtain ⟨e, he, rfl⟩ := mem_map.1 h
  exact drop_subset _ _ (take_subset _ _ (fst_mem_of_mem_zipIdx he))

variable {index : ℕ} {link : Link} {page : RelayPage}

theorem NodeOk.resetCursor (hs : StreamsOk streams) (h : NodeOk own streams node)
    (hlink : node.daemon.links[index]? = some link) (hsrv : streams.servers.get? link.peerId = some server)
    (hep : page.epoch = server.relayEpoch) (hcur : page.cursor.after = 0) :
    NodeOk own streams (node.perform (.setCursor index page.cursor)) := by
  refine h.setCursor fun link' hlink' => ?_
  obtain rfl := Option.some.inj (hlink.symm.trans hlink')
  refine ⟨.inr ?_, fun _ _ _ => by simp [hcur]⟩
  exact (congrArg (· ∈ streams.epochs) hep).mpr (hs.drawn _ server hsrv)

theorem syncRelayOnce_ok (hs : StreamsOk streams) (h : NodeOk own streams node)
    (hlink : node.daemon.links[index]? = some link) (hsrv : streams.servers.get? link.peerId = some server)
    (hpage : fetchRelayOps server link.relayCursor limit = .ok page) (faults : PullFaults) :
    Along Node.perform (DiskOk own streams) node (node.syncRelayOnce index link.relayCursor page faults).effects ∧
      NodeOk own streams (node.after (node.syncRelayOnce index link.relayCursor page faults).effects) := by
  obtain ⟨hep, hrst, hents⟩ := fetchRelayOps_ok hpage
  have hmem : link ∈ node.daemon.links := mem_of_getElem? hlink
  unfold Node.syncRelayOnce
  by_cases hr : page.reset = true
  · rw [if_pos hr]
    have hok := h.resetCursor hs hlink hsrv hep (by simp [RelayPage.cursor, hrst hr])
    exact ⟨along_cons.2 ⟨h.diskOk, along_nil.2 hok.diskOk⟩, hok⟩
  rw [if_neg hr]
  obtain ⟨hneeds, heq, hv⟩ := hents (by simpa using hr)
  have hfit : ∀ entry ∈ page.entries, entry.op.body.v = envelopeVersion ∧
      entry.op.toBytes.length < 2 ^ 32 :=
    fun entry hent => ⟨hv entry hent, relayEntries_fit hs hsrv (heq ▸ hent)⟩
  have hloop := relayLoop_ok h faults.writes link.relayCursor.after hfit
  generalize hlp : Node.relayLoop faults.writes page.entries node link.relayCursor.after = loop
  rw [hlp] at hloop
  obtain ⟨k, haft, hcont⟩ := hloop.reached
  rw [heq] at haft hcont
  -- a cursor set in a state whose links are still those of the start
  have hset : ∀ n : Node H, NodeOk own streams n → n.daemon.links = node.daemon.links →
      (∀ id, loop.after ≠ link.relayCursor.after → (node.after loop.effects).daemon.log.contains id = true →
        Holds own n.disk id ∧ n.daemon.log.contains id = true) →
      NodeOk own streams (n.perform (.setCursor index ⟨page.epoch, loop.after⟩)) := by
    intro n hn hl hgain
    refine hn.setCursor fun link' hlink' => ?_
    rw [hl] at hlink'
    obtain rfl := Option.some.inj (hlink.symm.trans hlink')
    rw [haft, hep]
    refine (hn.links link (hl ▸ hmem)).behind hs hsrv hneeds fun entry hent hne => ?_
    exact hgain _ (haft ▸ hne) (hcont entry hent)
  have hfin := hloop.final
  have hafterAll : ∀ effects, node.after (loop.effects ++ effects) = (node.after loop.effects).after effects :=
    fun effects => foldl_append
  simp only
  split_ifs with hsame hsync
  · have hok := hset _ hfin hloop.links fun id hne _ => absurd hsame hne
    rw [hafterAll]
    exact ⟨along_append.2 ⟨hloop.along, along_cons.2 ⟨hfin.diskOk, along_nil.2 hok.diskOk⟩⟩, hok⟩
  · obtain ⟨hsynced, hheld⟩ := hfin.sync
    have hrep := hsynced.replay
    split
    · rw [hafterAll]
      exact ⟨along_append.2 ⟨hloop.along, along_cons.2 ⟨hfin.diskOk, along_cons.2
        ⟨hsynced.diskOk, along_nil.2 hrep.diskOk⟩⟩⟩, hrep⟩
    · have hok := hset _ hrep hloop.links fun id _ hid => ⟨hheld id hid, hid⟩
      rw [hafterAll]
      exact ⟨along_append.2 ⟨hloop.along, along_cons.2 ⟨hfin.diskOk, along_cons.2
        ⟨hsynced.diskOk, along_cons.2 ⟨hrep.diskOk, along_nil.2 hok.diskOk⟩⟩⟩⟩, hok⟩
  · exact ⟨hloop.along, hfin⟩

theorem after_peerIds (effects : List (NodeEffect H)) (node : Node H) :
    (node.after effects).daemon.links.map Link.peerId = node.daemon.links.map Link.peerId := by
  induction effects generalizing node with
  | nil => rfl
  | cons effect effects ih =>
    refine (ih (node.perform effect)).trans ?_
    cases effect with
    | setCursor index cursor =>
      apply ext_getElem?
      intro i
      simp only [Node.perform, getElem?_map, getElem?_modify]
      cases node.daemon.links[i]? with
      | none => rfl
      | some link =>
        by_cases hi : index = i <;> simp [hi]
    | _ => rfl

theorem pullRelay_ok (hs : StreamsOk streams) (h : NodeOk own streams node)
    (hlink : node.daemon.links[index]? = some link) (hsrv : streams.servers.get? link.peerId = some server)
    (hpage : fetchRelayOps server link.relayCursor limit = .ok page) (faults : PullFaults) :
    Along Node.perform (DiskOk own streams) node (node.pullRelay index page faults) ∧
      NodeOk own streams (node.after (node.pullRelay index page faults)) := by
  obtain ⟨ha, hf⟩ := syncRelayOnce_ok hs h hlink hsrv hpage faults
  simp only [Node.pullRelay, hlink]
  split
  · exact ⟨ha, hf⟩
  · rename_i moved hmov
    split_ifs with hsame
    · exact ⟨ha, hf⟩
    · -- the cursor saved under the link's peer is the one the link has now
      have hpeer : moved.peerId = link.peerId := by
        have hids := after_peerIds (node.syncRelayOnce index link.relayCursor page faults).effects node
        have hi := congrArg (fun l => l[index]?) hids
        simpa only [getElem?_map, hmov, hlink, Option.map_some, Option.some.injEq] using hi
      have hv := hf.links moved (mem_of_getElem? hmov)
      rw [hpeer] at hv
      have hsave := hf.saveRelayCursor hv faults.save
      refine ⟨along_append.2 ⟨ha, fun n => (hsave n).diskOk⟩, ?_⟩
      rw [Node.after, foldl_append]
      exact hsave.final

end ProxyNode
