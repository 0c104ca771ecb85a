import ProxyNode.Sanity.Acceptance
import ProxyNode.Sanity.Serving
import ProxyNode.Spec.Sweep

/-! What a store sweep hands over. Against a node that serves its ops honestly, a sweep
that ended well has handed over the whole store exactly if the node did not answer with a
reset and the own origin's share of the store left room on the first page, or nothing of
the store comes from a lower origin. -/

namespace ProxyNode

open List SignedOp

variable {S : SweepSocket} {limits : PageLimits} {socket : MeshPullSocket} {ops : List SignedOp} {peer : DeviceId}
  {relayCursor : Option RelayCursor} {store : List Byte}

/-! ## The pages of a sweep -/

def sweepNeedsReset (socket : MeshPullSocket) (relayCursor : Option RelayCursor) : Bool :=
  pullNeedsReset ((relayCursor.map RelayCursor.epoch).getD zeroEpoch)
    ((relayCursor.map RelayCursor.after).getD 0) socket.relayStreamState

theorem servePull_reset (hrst : sweepNeedsReset socket relayCursor = true) (s : SweepState) (now : ℤ) :
    servePull limits socket (sweepRequest limits relayCursor store s now) =
      .ok (resetPullPage socket.relayStreamState) := by
  have hack : admitPullAck socket (sweepRequest limits relayCursor store s now) =
      .ok (some (resetPullPage socket.relayStreamState)) := admitPullAck_reset rfl hrst
  simp only [servePull, hack]

/-- A sweep that is not reset gets the next stretch of its visit. -/
theorem servePull_sweep (limits : PageLimits) (store : List Byte) (h : ServesOps socket ops)
    (hrst : sweepNeedsReset socket relayCursor = false)
    (stop : Option SignedOp) {s : SweepState} (hs : s.resume = stop.map cutToken) (now : ℤ) :
    ∃ keyed resume, Filled limits.pageLimitMax limits.pageByteBudget
        (visitFrom socket.ownDeviceId (inStore ops (some store)) stop) (keyed, resume) ∧
      servePull limits socket (sweepRequest limits relayCursor store s now) =
        .ok (pullPage socket.relayStreamState (some store) [] keyed
          ((relayCursor.map RelayCursor.after).getD 0) resume) := by
  have hack : admitPullAck socket (sweepRequest limits relayCursor store s now) = .ok none :=
    admitPullAck_none rfl hrst
  have hlim : max 1 (min limits.pageLimitMax limits.pageLimitMax) = limits.pageLimitMax := by
    have := limits.pageLimitMax_pos
    omega
  have hfil : (s.resume.filter fun r => decide (r.phase = .keyed)) = stop.map cutToken := by
    rw [hs]
    cases stop <;> rfl
  have hfill := h.channel .new limits (some store) stop
  generalize hchan : buildKeyedChannel socket .new true limits.pageByteBudget
      (some store) (stop.map cutToken) limits.pageLimitMax = result
  obtain ⟨keyed, resume⟩ := result
  rw [hchan] at hfill
  refine ⟨keyed, resume, hfill, ?_⟩
  simp only [servePull, hack]
  simp only [buildPullPage, sweepRequest, reduceCtorEq, false_and, if_false, hlim, hfil, hchan]

/-! ## One request -/

theorem mem_inStore {op : SignedOp} : op ∈ inStore ops (some store) ↔ op ∈ ops ∧ op.body.store.1 = store := by
  rw [inStore, mem_filter, OpLog.ofStore, Option.all_some, decide_eq_true_eq]

theorem decode_entries {l : List SignedOp} {r : List SignedOp}
    (h : (l.map entryOf).mapM (fun entry => decodePageOp entry peer) = .ok r) : r = l := by
  rw [eq_of_mapM_map_ok h fun _ _ _ hop => (decodePageOp_ok hop).1]
  exact map_id l

def handedOps (calls : List Handed) : List SignedOp := calls.flatMap Handed.ops

structure SweepPage (store : List Byte) (served : List SignedOp) (page : PullPage) : Prop where
  store : page.store = some store
  keyed : page.keyed = served.map entryOf
  complete : page.complete = page.resume.isNone

variable {st st' : S.State} {calls : List Handed}

/-- A page that the sweep got through was handed over whole; the sweep then ends at a
complete page and goes on from the token of another. -/
theorem sweepPage_clean {s : SweepState} {next : SweepNext} {served : List SignedOp} {page : PullPage}
    (hp : SweepPage store served page) (hpage : sweepPage S peer store st s page = (st', calls, next))
    (hcln : ∀ call ∈ calls, call.Clean) (hgood : ∀ e, next ≠ .done (.error e)) :
    handedOps calls = served ∧
      ((page.resume = none ∧ ∃ n, next = .done (.ok n)) ∨
        page.resume ≠ none ∧ ∃ s', next = .again s' ∧ s'.resume = page.resume) := by
  unfold sweepPage at hpage
  rw [if_neg (not_not.2 hp.store), hp.keyed] at hpage
  cases hdec : (served.map entryOf).mapM fun entry => decodePageOp entry peer with
  | error e =>
    rw [hdec] at hpage
    obtain ⟨rfl, rfl, rfl⟩ := hpage
    exact absurd rfl (hgood e)
  | ok r =>
    obtain rfl : r = served := decode_entries hdec
    generalize hadm : S.admitOps st r = res
    obtain ⟨st₁, outcome⟩ := res
    simp only [hdec, hadm] at hpage
    cases outcome with
    | error e =>
      obtain ⟨rfl, rfl, rfl⟩ := hpage
      exact absurd rfl (hgood e)
    | ok adm =>
      obtain ⟨rfl, rfl, rfl⟩ := hpage
      refine ⟨by simp [handedOps], ?_⟩
      obtain ⟨adm', hok, herr⟩ := hcln _ (mem_singleton_self _)
      obtain rfl := Except.ok.inj hok
      unfold sweepAdvance at hgood ⊢
      simp only [herr, hp.complete, Option.isSome_none, Bool.false_eq_true, false_or, Option.isNone_iff_eq_none]
        at hgood ⊢
      by_cases hres : page.resume = none
      · rw [if_pos hres]
        exact .inl ⟨hres, _, rfl⟩
      · rw [if_neg hres] at hgood ⊢
        split_ifs at hgood ⊢ with hpos
        · exact absurd rfl (hgood _)
        · exact .inr ⟨hres, _, rfl, rfl⟩

/-! ## Whole sweeps -/

section Run

variable {now : ℕ → ℕ} {st st' : S.State} {s : SweepState} {calls : List Handed} {n fuel : ℕ}

theorem sweepStore_succ {world : ℕ → Moment} {result : Except String ℕ}
    (hrun : sweepStore S limits peer relayCursor store (fuel + 1) world st s = some (st', calls, result))
    {st₁ : S.State} {calls₀ : List Handed} {next : SweepNext}
    (hstep : sweepStep S limits peer relayCursor store (world 0) st s = (st₁, calls₀, next)) :
    (next = .done result ∧ calls = calls₀) ∨
    ∃ s₁ calls₁, next = .again s₁ ∧ calls = calls₀ ++ calls₁ ∧
      sweepStore S limits peer relayCursor store fuel (fun i => world (i + 1)) st₁ s₁ =
        some (st', calls₁, result) := by
  rw [sweepStore, hstep] at hrun
  cases next with
  | done r =>
    obtain ⟨rfl, rfl, rfl⟩ := Option.some.inj hrun
    exact .inl ⟨rfl, rfl⟩
  | again s₁ =>
    obtain ⟨⟨st₂, calls₁, r⟩, hrest, heq⟩ := Option.map_eq_some_iff.1 hrun
    obtain ⟨rfl, rfl, rfl⟩ := heq
    exact .inr ⟨s₁, calls₁, rfl, rfl, hrest⟩

/-- One request of a sweep that ends well: its page holds the rest of the visit, or the
sweep goes on behind the op that filled it. -/
theorem sweepStore_step (h : ServesOps socket ops) (hrst : sweepNeedsReset socket relayCursor = false)
    (stop : Option SignedOp) (hs : s.resume = stop.map cutToken) {visit : List SignedOp}
    (hvis : visitFrom socket.ownDeviceId (inStore ops (some store)) stop = visit)
    (hrun : sweepStore S limits peer relayCursor store (fuel + 1) (steadyWorld limits socket now) st s =
      some (st', calls, .ok n)) (hcln : ∀ call ∈ calls, call.Clean) :
    (Fits limits.pageLimitMax limits.pageByteBudget visit ∧ handedOps calls = visit) ∨
    ∃ first x rest, visit = first ++ x :: rest ∧ Fits limits.pageLimitMax limits.pageByteBudget first ∧
      ¬Fits limits.pageLimitMax limits.pageByteBudget (first ++ [x]) ∧
      ∃ st₁ s₁ calls₁, s₁.resume = some (cutToken x) ∧ (∀ call ∈ calls₁, call.Clean) ∧
        handedOps calls = first ++ [x] ++ handedOps calls₁ ∧
        sweepStore S limits peer relayCursor store fuel (steadyWorld limits socket fun i => now (i + 1)) st₁ s₁ =
          some (st', calls₁, .ok n) := by
  obtain ⟨keyed, resume, hfill, hserve⟩ := servePull_sweep limits store h hrst stop hs (now 0)
  generalize hpage : pullPage socket.relayStreamState (some store) [] keyed
      ((relayCursor.map RelayCursor.after).getD 0) resume = page
  generalize hnext : sweepPage S peer store st s page = r
  obtain ⟨st₁, calls₀, next⟩ := r
  have hstep : sweepStep S limits peer relayCursor store (steadyWorld limits socket now 0) st s =
      (st₁, calls₀, next) := by
    rw [hpage] at hserve
    simp only [sweepStep, steadyWorld, serveSocket, hserve, hnext]
  have hprt := sweepStore_succ hrun hstep
  have hgood : ∀ e, next ≠ .done (.error e) := by
    rintro e rfl
    rcases hprt with ⟨hdone, -⟩ | ⟨s₁, calls₁, hagain, -⟩
    · cases hdone
    · cases hagain
  have hcln₀ : ∀ call ∈ calls₀, call.Clean := by
    intro call hcall
    rcases hprt with ⟨-, rfl⟩ | ⟨s₁, calls₁, -, rfl, -⟩
    · exact hcln call hcall
    · exact hcln call (mem_append_left _ hcall)
  rw [hvis] at hfill
  cases hfill with
  | whole room =>
    have hp : SweepPage store visit page := hpage ▸ ⟨rfl, rfl, rfl⟩
    have hnone : page.resume = none := hpage ▸ rfl
    obtain ⟨hops, ⟨-, n', rfl⟩ | ⟨hres, -⟩⟩ := sweepPage_clean hp hnext hcln₀ hgood
    · rcases hprt with ⟨-, rfl⟩ | ⟨s₁, calls₁, hagain, -⟩
      · exact .inl ⟨room, hops⟩
      · cases hagain
    · exact absurd hnone hres
  | upTo first x rest order room full =>
    have hp : SweepPage store (first ++ [x]) page := hpage ▸ ⟨rfl, rfl, rfl⟩
    have hsome : page.resume = some (cutToken x) := hpage ▸ rfl
    obtain ⟨hops, ⟨hres, -⟩ | ⟨-, s₁, rfl, hres⟩⟩ := sweepPage_clean hp hnext hcln₀ hgood
    · rw [hsome] at hres
      cases hres
    · rcases hprt with ⟨hdone, -⟩ | ⟨s₂, calls₁, hagain, rfl, hrest⟩
      · cases hdone
      · obtain rfl := SweepNext.again.inj hagain
        refine .inr ⟨first, x, rest, order, room, full, st₁, s₁, calls₁, hres.trans hsome, ?_, ?_, hrest⟩
        · exact fun call hcall => hcln call (mem_append_right _ hcall)
        · rw [handedOps, flatMap_append, ← handedOps, ← handedOps, hops]

/-- From a token on, a sweep hands over exactly the ops behind the one it names. -/
theorem handed_from_token (h : ServesOps socket ops) (hrst : sweepNeedsReset socket relayCursor = false)
    {x : SignedOp} (hs : s.resume = some (cutToken x))
    (hrun : sweepStore S limits peer relayCursor store fuel (steadyWorld limits socket now) st s =
      some (st', calls, .ok n)) (hcln : ∀ call ∈ calls, call.Clean) :
    handedOps calls = opsPast (inStore ops (some store)) x := by
  induction fuel generalizing now st s calls x with
  | zero => cases hrun
  | succ fuel ih =>
    rcases sweepStore_step h hrst (some x) hs rfl hrun hcln with
      ⟨-, hall⟩ | ⟨first, y, rest, hord, -, -, st₁, s₁, calls₁, hs₁, hcln₁, hops, hrest⟩
    · exact hall
    · change opsPast (inStore ops (some store)) x = first ++ y :: rest at hord
      have hrest' : opsPast (inStore ops (some store)) y = rest :=
        opsPast_rest (ids_nodup_filter h.distinct _) hord
      rw [hops, ih hs₁ hrest hcln₁, hrest', hord]
      simp

end Run

/-! ## Sweeps end -/

section Ends

variable {inv : S.State → Prop} {s : SweepState}

/-- Where a sweep stands: the token of the op it stopped at, noted as its last one too. -/
def SweepState.At (s : SweepState) (stop : Option SignedOp) : Prop :=
  s.resume = stop.map cutToken ∧ s.lastResume = stop.map fun x => (some x.body.device, some x.orderKey)

variable {stop : Option SignedOp}

theorem SweepState.At.advances (hs : s.At stop) {own : DeviceId} {T : List SignedOp} {x : SignedOp}
    (hx : x ∈ visitFrom own T stop) :
    some (some x.body.device, some x.orderKey) ≠ s.lastResume := by
  rw [hs.2]
  cases stop with
  | none => nofun
  | some y =>
    intro heq
    obtain ⟨hd, hk⟩ := Prod.mk.inj (Option.some.inj heq)
    rcases visitKey_lt.1 (mem_opsPast.1 hx).2 with hlt | ⟨-, hlt⟩
    · exact hlt.ne (Option.some.inj hd).symm
    · exact hlt.ne (Option.some.inj hk).symm

theorem decode_served {l : List SignedOp} (hv : ∀ op ∈ l, op.body.v = envelopeVersion) :
    (l.map entryOf).mapM (fun entry => decodePageOp entry peer) = .ok l := by
  have hmap := mapM_map_pure (f := fun entry => decodePageOp entry peer) (e := entryOf) (g := id)
    fun op hop => decodePageOp_entryOf (hv op hop)
  rwa [map_id] at hmap

variable {st : S.State}

theorem sweepPage_takes {served : List SignedOp} (hv : ∀ op ∈ served, op.body.v = envelopeVersion)
    {page : PullPage} (hp : SweepPage store served page) {st₁ : S.State} {adm : SweepAdmission}
    (hadm : S.admitOps st served = (st₁, .ok adm)) :
    sweepPage S peer store st s page = (st₁, [⟨served, .ok adm⟩], sweepAdvance peer s page adm) := by
  have hdec : page.keyed.mapM (fun entry => decodePageOp entry peer) = .ok served := by
    rw [hp.keyed]
    exact decode_served hv
  simp only [sweepPage, hp.store, ne_eq, not_true_eq_false, if_false, hdec, hadm]

/-- The socket takes any of `ops` in every state of `inv`, and stays in it. -/
def SweepSocket.Takes (S : SweepSocket) (inv : S.State → Prop) (ops : List SignedOp) : Prop :=
  ∀ st l, inv st → (∀ op ∈ l, op ∈ ops) → ∃ st₁ adm,
    S.admitOps st l = (st₁, .ok adm) ∧ adm.error = none ∧ inv st₁

theorem sweepStep_takes (limits : PageLimits) (peer : DeviceId) (store : List Byte) (h : ServesOps socket ops)
    (hrst : sweepNeedsReset socket relayCursor = false) (hv : ∀ op ∈ ops, op.body.v = envelopeVersion)
    (htakes : S.Takes inv ops) (hs : s.At stop) (hinv : inv st) (now : ℕ → ℕ) :
    ∃ st₁ call next, sweepStep S limits peer relayCursor store (steadyWorld limits socket now 0) st s =
        (st₁, [call], next) ∧ inv st₁ ∧ call.Clean ∧
      ((∃ n, next = .done (.ok n)) ∨ ∃ first x rest s₁, next = .again s₁ ∧ s₁.At (some x) ∧
        visitFrom socket.ownDeviceId (inStore ops (some store)) stop = first ++ x :: rest) := by
  obtain ⟨keyed, resume, hfill, hserve⟩ := servePull_sweep limits store h hrst stop hs.1 (now 0)
  have hstep : sweepStep S limits peer relayCursor store (steadyWorld limits socket now 0) st s =
      sweepPage S peer store st s (pullPage socket.relayStreamState (some store) [] keyed
        ((relayCursor.map RelayCursor.after).getD 0) resume) := by
    simp only [sweepStep, steadyWorld, serveSocket, hserve]
  rw [hstep]
  cases hfill with
  | whole room =>
    obtain ⟨st₁, adm, hadm, herr, hinv₁⟩ :=
      htakes st _ hinv fun op hop => (mem_inStore.1 (mem_of_visit hop)).1
    refine ⟨st₁, _, _,
      sweepPage_takes (fun op hop => hv op ((mem_inStore.1 (mem_of_visit hop)).1)) ⟨rfl, rfl, rfl⟩ hadm, hinv₁,
      ⟨adm, rfl, herr⟩, .inl ⟨s.applied + adm.admitted, ?_⟩⟩
    exact if_pos (.inr rfl)
  | upTo first x rest order room full =>
    have hsvd : ∀ op ∈ first ++ [x], op ∈ visitFrom socket.ownDeviceId (inStore ops (some store)) stop := by
      intro op hop
      rw [order, show first ++ x :: rest = first ++ [x] ++ rest by simp]
      exact mem_append_left _ hop
    obtain ⟨st₁, adm, hadm, herr, hinv₁⟩ :=
      htakes st _ hinv fun op hop => (mem_inStore.1 (mem_of_visit (hsvd op hop))).1
    have hne := hs.advances (hsvd x (by simp))
    refine ⟨st₁, _, _,
      sweepPage_takes (fun op hop => hv op ((mem_inStore.1 (mem_of_visit (hsvd op hop))).1)) ⟨rfl, rfl,
        rfl⟩ hadm,
      hinv₁, ⟨adm, rfl, herr⟩, .inr ⟨first, x, rest, ⟨s.applied + adm.admitted, some (cutToken x),
        some (some x.body.device, some x.orderKey)⟩, ?_, ⟨rfl, rfl⟩, order⟩⟩
    simp only [sweepAdvance, herr, pullPage, Option.isSome_none, Option.isNone_some, Bool.false_eq_true, or_self,
      if_false, Option.map_some, cutToken, keyedResume]
    exact if_neg hne

/-- A sweep by a socket that takes every op of the node returns, without an admission error. -/
theorem sweep_returns (limits : PageLimits) (peer : DeviceId) (store : List Byte) (h : ServesOps socket ops)
    (hrst : sweepNeedsReset socket relayCursor = false) (hv : ∀ op ∈ ops, op.body.v = envelopeVersion)
    (htakes : S.Takes inv ops) (hs : s.At stop) (hinv : inv st) (now : ℕ → ℕ) :
    ∃ fuel st' calls n, sweepStore S limits peer relayCursor store fuel (steadyWorld limits socket now) st s =
      some (st', calls, .ok n) ∧ ∀ call ∈ calls, call.Clean := by
  induction hk : (visitFrom socket.ownDeviceId (inStore ops (some store)) stop).length using
    Nat.strong_induction_on generalizing stop s st now with
  | _ k ih =>
    subst hk
    obtain ⟨st₁, call, next, hstep, hinv₁, hcln, hnext⟩ :=
      sweepStep_takes limits peer store h hrst hv htakes hs hinv now
    rcases hnext with ⟨n, rfl⟩ | ⟨first, x, rest, s₁, rfl, hs₁, hord⟩
    · refine ⟨1, st₁, [call], n, by rw [sweepStore, hstep], fun c hc => ?_⟩
      rwa [mem_singleton.1 hc]
    · obtain ⟨fuel, st', calls, n, hrun, hcalls⟩ := ih _
        (visitFrom_shrinks (ids_nodup_filter h.distinct _) hord) hs₁ hinv₁ (fun i => now (i + 1)) rfl
      refine ⟨fuel + 1, st', call :: calls, n, ?_, fun c hc => ?_⟩
      · rw [sweepStore, hstep]
        exact congrArg (Option.map fun r => (r.1, [call] ++ r.2.1, r.2.2)) hrun
      · rcases mem_cons.1 hc with rfl | hc
        · exact hcln
        · exact hcalls c hc

end Ends

/-! ## What a sweep reaches -/

def ownShare (own : DeviceId) (ops : List SignedOp) (store : List Byte) : List SignedOp :=
  (inStore ops (some store)).filter fun op => op.body.device = own

/-- The node holds nothing of the store; or it does not reset the cursor presented, and the
own origin's share leaves room on a page or no op of the store is of a lower origin. -/
def SweepReaches (limits : PageLimits) (socket : MeshPullSocket) (ops : List SignedOp)
    (relayCursor : Option RelayCursor) (store : List Byte) : Prop :=
  (∀ op ∈ ops, op.body.store.1 ≠ store) ∨
  sweepNeedsReset socket relayCursor = false ∧
    (Fits limits.pageLimitMax limits.pageByteBudget (ownShare socket.ownDeviceId ops store) ∨
      ∀ op ∈ ops, op.body.store.1 = store → socket.ownDeviceId ≤ op.body.device)

/-- Of a part of the ops in the order of visits, those that are not in front of `x` are past it. -/
theorem mem_of_visits {T front tail : List SignedOp} {x op : SignedOp} {p : SignedOp → Bool}
    (hnd : (T.map SignedOp.id).Nodup) (hspl : (T.filter p).orderBy visitKey = front ++ x :: tail)
    (hop : op ∈ T) (hp : p op = true) : op ∈ front ∨ op = x ∨ op ∈ opsPast T x := by
  have hup := orderBy_lt (visitKeys_nodup (ids_nodup_filter hnd p))
  have hmem : op ∈ (T.filter p).orderBy visitKey := by
    rw [mem_orderBy, mem_filter]
    exact ⟨hop, hp⟩
  rw [hspl, pairwise_append, pairwise_cons] at hup
  rw [hspl, mem_append, mem_cons] at hmem
  exact hmem.imp_right (Or.imp_right fun hin => mem_opsPast.2 ⟨hop, hup.2.1.1 op hin⟩)

/-- A fresh page that fills at `x` and the ops behind it hold the store, unless `x` is the
own origin's and there are lower origins. -/
theorem mem_cut_iff {T first rest : List SignedOp} {own : DeviceId} {x : SignedOp} {limit budget : ℕ}
    (hnd : (T.map SignedOp.id).Nodup) (hord : freshOrder own T = first ++ x :: rest)
    (hroom : Fits limit budget first) (hfull : ¬Fits limit budget (first ++ [x])) :
    (∀ op ∈ T, op ∈ first ++ [x] ++ opsPast T x) ↔
      Fits limit budget (T.filter fun op => op.body.device = own) ∨ ∀ op ∈ T, own ≤ op.body.device := by
  have hperm := orderBy_perm visitKey (T.filter fun op => op.body.device = own)
  have hprt : ∀ op, op ∈ first ++ [x] ++ opsPast T x ↔ op ∈ first ∨ op = x ∨ op ∈ opsPast T x := by
    intro op
    rw [append_assoc, mem_append, mem_append, mem_singleton]
  simp only [hprt]
  rcases freshOrder_split hord with ⟨hx, tail, htail⟩ | ⟨hx, front, rfl, hothers⟩
  · -- the page fills within the own origin
    have hown : ¬Fits limit budget (T.filter fun op => op.body.device = own) := by
      rw [← Fits.perm hperm, htail]
      refine fun hfit => hfull (hfit.sublist ?_)
      rw [show first ++ x :: tail = first ++ [x] ++ tail by simp]
      exact sublist_append_left _ _
    rw [or_iff_right hown]
    refine ⟨fun hall op hop => ?_, fun hlow op hop => ?_⟩
    · rcases hall op hop with hin | rfl | hin
      · have hmem : op ∈ (T.filter fun op => op.body.device = own).orderBy visitKey := by
          rw [htail]
          exact mem_append_left _ hin
        rw [mem_orderBy, mem_filter, decide_eq_true_eq] at hmem
        exact hmem.2.ge
      · exact hx.ge
      · rcases visitKey_lt.1 (mem_opsPast.1 hin).2 with hlt | ⟨heq, -⟩
        · exact hx ▸ hlt.le
        · exact (hx ▸ heq).le
    · rcases (hlow op hop).eq_or_lt with heq | hlt
      · exact mem_of_visits hnd htail hop (decide_eq_true heq.symm)
      · exact .inr (.inr (mem_opsPast.2 ⟨hop, visitKey_lt.2 (.inl (hx ▸ hlt))⟩))
  · -- the own origin fits, and the page fills behind it
    have hown : Fits limit budget (T.filter fun op => op.body.device = own) :=
      (Fits.perm hperm).1 (hroom.sublist (sublist_append_left _ _))
    refine iff_of_true (fun op hop => ?_) (.inl hown)
    by_cases hd : op.body.device = own
    · refine .inl (mem_append_left _ ?_)
      rw [mem_orderBy, mem_filter, decide_eq_true_eq]
      exact ⟨hop, hd⟩
    · exact (mem_of_visits hnd hothers hop (decide_eq_true hd)).imp_left (mem_append_right _)

/-- A sweep that is not reset hands over the whole store exactly if its own origin's share
leaves room or no op of the store is of a lower origin. -/
theorem sweep_fresh_iff (h : ServesOps socket ops) (hrst : sweepNeedsReset socket relayCursor = false)
    {now : ℕ → ℕ} {fuel : ℕ} {n : ℕ}
    (hrun : sweepStore S limits peer relayCursor store fuel (steadyWorld limits socket now) st .start =
      some (st', calls, .ok n)) (hcln : ∀ call ∈ calls, call.Clean) :
    (∀ op ∈ inStore ops (some store), op ∈ handedOps calls) ↔
      Fits limits.pageLimitMax limits.pageByteBudget (ownShare socket.ownDeviceId ops store) ∨
        ∀ op ∈ inStore ops (some store), socket.ownDeviceId ≤ op.body.device := by
  cases fuel with
  | zero => cases hrun
  | succ fuel =>
    rcases sweepStore_step h hrst none rfl rfl hrun hcln with
      ⟨hroom, hall⟩ | ⟨first, x, rest, hord, hroom, hfull, st₁, s₁, calls₁, hs₁, hcln₁, hops, hrest⟩
    · refine iff_of_true (fun op hop => ?_) (.inl ?_)
      · rw [hall]
        exact mem_freshOrder.2 hop
      · refine (Fits.perm (orderBy_perm visitKey _)).1 (hroom.sublist ?_)
        exact sublist_append_left _ _
    · rw [hops, handed_from_token h hrst hs₁ hrest hcln₁]
      exact mem_cut_iff (ids_nodup_filter h.distinct _) hord hroom hfull

/-- A sweep whose cursor is reset ends at once, with nothing handed over. -/
theorem sweep_reset (hrst : sweepNeedsReset socket relayCursor = true) {now : ℕ → ℕ} {fuel : ℕ}
    {result : Except String ℕ}
    (hrun : sweepStore S limits peer relayCursor store fuel (steadyWorld limits socket now) st .start =
      some (st', calls, result)) :
    calls = [] := by
  cases fuel with
  | zero => cases hrun
  | succ fuel =>
    have hstep : sweepStep S limits peer relayCursor store (steadyWorld limits socket now 0) st .start =
        (st, [], .done (.ok 0)) := by
      simp only [sweepStep, steadyWorld, serveSocket, servePull_reset hrst]
      rfl
    rcases sweepStore_succ hrun hstep with ⟨-, hcalls⟩ | ⟨s₁, calls₁, hagain, -⟩
    · exact hcalls
    · cases hagain

/-- A sweep of an honest node that returned `Ok` and met no admission error has handed over
every op of the store exactly if the node holds none, or did not reset the cursor and the
own origin's share of the store left room on the first page or no op is of a lower origin. -/
theorem sweep_store_complete_iff (S : SweepSocket) (limits : PageLimits) (socket : MeshPullSocket)
    (ops : List SignedOp) (h : ServesOps socket ops) (peer : DeviceId) (relayCursor : Option RelayCursor)
    (store : List Byte) (now : ℕ → ℕ) (fuel : ℕ) (st st' : S.State) (calls : List Handed) (n : ℕ)
    (hrun : sweepStore S limits peer relayCursor store fuel (steadyWorld limits socket now) st .start =
      some (st', calls, .ok n)) (hcln : ∀ call ∈ calls, call.Clean) :
    (∀ op ∈ ops, op.body.store.1 = store → ∃ call ∈ calls, op ∈ call.ops) ↔
      SweepReaches limits socket ops relayCursor store := by
  have hhanded : (∀ op ∈ ops, op.body.store.1 = store → ∃ call ∈ calls, op ∈ call.ops) ↔
      ∀ op ∈ inStore ops (some store), op ∈ handedOps calls := by
    simp only [mem_inStore, handedOps, List.mem_flatMap, and_imp]
  have hlow : (∀ op ∈ ops, op.body.store.1 = store → socket.ownDeviceId ≤ op.body.device) ↔
      ∀ op ∈ inStore ops (some store), socket.ownDeviceId ≤ op.body.device := by
    simp only [mem_inStore, and_imp]
  rw [hhanded, SweepReaches, hlow]
  cases hrst : sweepNeedsReset socket relayCursor with
  | true =>
    rw [sweep_reset hrst hrun]
    simp only [handedOps, List.flatMap_nil, List.not_mem_nil, imp_false, mem_inStore, not_and, reduceCtorEq,
      false_and, or_false]
  | false =>
    rw [sweep_fresh_iff h hrst hrun hcln]
    simp only [true_and]
    refine ⟨Or.inr, fun hreach => ?_⟩
    rcases hreach with hnone | hreach
    · exact Or.inr fun op hop => absurd (mem_inStore.1 hop).2 (hnone op (mem_inStore.1 hop).1)
    · exact hreach

/-! ## The in-memory socket -/

/-- A socket whose registry knows every signer takes welcome ops. -/
theorem sweepSocket_takes {H : Host} {calm : H.Clock → Prop} (registry : DeviceRegistry H.crypto)
    (hw : ∀ op ∈ ops, Welcome calm registry op) :
    (OpLogPullSocket.sweepSocket H).Takes (fun p => Ready calm p ∧ p.registry = registry) ops := by
  rintro p l ⟨hrdy, rfl⟩ hl
  have hkn : ∀ op ∈ l, (p.registry.keyFor op.body.device).isSome := by
    intro op hop
    obtain ⟨key, hk, -⟩ := (hw op (hl op hop)).signed
    rw [hk]
    rfl
  have hskip := admitOps_registered hkn true
  obtain ⟨herr, hrdy'⟩ := admitOps_welcome hrdy fun op hop => hw op (hl op hop)
  rw [← hskip] at herr hrdy'
  exact ⟨_, _, rfl, herr, hrdy', OpLogPullSocket.after_registry _ _⟩

/-- With room for both, a puller that knows both signers is handed both. -/
theorem sweep_store_complete_two_origins :
    ∃ fuel st' calls n, sweepStore (OpLogPullSocket.sweepSocket plainHost) .shipped (padTo 32 [7]) none kvStoreId.1
        fuel (steadyWorld .shipped ((PageReads.atomic twoOrigins).serveState (padTo 32 [7])) fun _ => 0)
        (plainPuller [padTo 32 [7], padTo 32 [5]]) .start = some (st', calls, .ok n) ∧
      (∀ call ∈ calls, call.Clean) ∧
      ∀ op ∈ twoOrigins.arrivals, op.body.store.1 = kvStoreId.1 → ∃ call ∈ calls, op ∈ call.ops := by
  have hsrv := servesOps_serveState twoOrigins (padTo 32 [7])
  have hrst : sweepNeedsReset ((PageReads.atomic twoOrigins).serveState (padTo 32 [7])) none = false := by
    decide +kernel
  have hrdy : Ready (fun _ => True) (plainPuller [padTo 32 [7], padTo 32 [5]]) := ⟨trivial, nofun⟩
  obtain ⟨fuel, st', calls, n, hrun, hcln⟩ := sweep_returns .shipped (padTo 32 [7]) kvStoreId.1 hsrv hrst
    (fun op hop => (twoOrigins_welcome op hop).version) (sweepSocket_takes _ twoOrigins_welcome)
      (show SweepState.start.At none from ⟨rfl, rfl⟩)
    ⟨hrdy, rfl⟩ fun _ => 0
  refine ⟨fuel, st', calls, n, hrun, hcln, ?_⟩
  refine (sweep_store_complete_iff _ _ _ _ hsrv _ _ _ _ _ _ _ _ _ hrun hcln).2 (Or.inr ⟨hrst, Or.inl ?_⟩)
  decide +kernel

/-- Pages of one entry end within the own origin and leave the lower one out; a cursor of
another stream is answered with a reset, and the sweep ends with nothing. -/
theorem sweep_store_leaves_ops :
    twoOrigins.arrivals = [plainPut (padTo 32 [7]) 20, plainPut (padTo 32 [5]) 10] ∧
    (sweepStore (OpLogPullSocket.sweepSocket plainHost) pageOfOne (padTo 32 [7]) none kvStoreId.1 2
      (steadyWorld pageOfOne ((PageReads.atomic twoOrigins).serveState (padTo 32 [7])) fun _ => 0)
      (plainPuller [padTo 32 [7], padTo 32 [5]]) .start).map (fun r => (handedOps r.2.1, r.2.2.toOption)) =
        some ([plainPut (padTo 32 [7]) 20], some 1) ∧
    (sweepStore (OpLogPullSocket.sweepSocket plainHost) .shipped (padTo 32 [7]) (some ⟨Wire.fill 32 4, 0⟩)
      kvStoreId.1 1 (steadyWorld .shipped ((PageReads.atomic twoOrigins).serveState (padTo 32 [7])) fun _ => 0)
      (plainPuller [padTo 32 [7], padTo 32 [5]]) .start).map (fun r => (handedOps r.2.1, r.2.2.toOption)) =
        some ([], some 0) := by
  decide +kernel

end ProxyNode
