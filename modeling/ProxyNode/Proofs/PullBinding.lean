import ProxyNode.Sanity.PageRoom
import ProxyNode.Spec.Kv
import ProxyNode.Spec.PullAuth

/-! What a pull message is bound to. A request names no server and a page names no puller, so
any server that knows the requester takes the request while it is fresh, and any puller of
the server takes the page. -/

namespace ProxyNode

open Wire SignedOp

section

variable {C : Crypto} {codec : PullCodec}

def SealsVerify (C : Crypto) : Prop :=
  ∀ body identity, (SignedOp.sealOp C body identity).verify C (C.verifyingKey identity) = .ok ()

theorem sealOp_verifyWithSec1 (hseal : SealsVerify C) (body : OpBody) (identity : C.Secret) :
    (sealOp C body identity).verifyWithSec1 C (publicKeySec1 C identity).1 = .ok () := by
  have hlen : (C.sec1Compressed (C.verifyingKey identity)).1.length = 33 := (C.sec1Compressed _).2
  simp only [verifyWithSec1, publicKeySec1, hlen, dite_true, Subtype.coe_eta,
    C.keyOfSec1_sec1Compressed, hseal body identity]

/-- What a receiver reads out of a sealed payload. -/
theorem sealPayload_read (hseal : SealsVerify C) (store : StoreId) (payload : Payload) (identity : C.Secret)
    (hlc : Hlc) :
    ∃ op, fromBytes (sealPayload C store payload identity hlc) = .ok op ∧
      op.body = ⟨envelopeVersion, hlc, deviceOf C identity, store, payload⟩ ∧
      op.verifyWithSec1 C (publicKeySec1 C identity).1 = .ok () :=
  ⟨sealOp C ⟨envelopeVersion, hlc, deviceOf C identity, store, payload⟩ identity,
    fromBytes_toBytes rfl, rfl, sealOp_verifyWithSec1 hseal _ _⟩

/-- A sealed request passes the checks of any server that has the key, up to version and age. -/
theorem verifyPullRequest_sealed (hseal : SealsVerify C) {req : PullRequest} {identity : C.Secret} {hlc : Hlc}
    {bytes : List Byte} (hsign : signPullRequest C codec req identity hlc = .ok bytes) (nowMs : ℤ)
    {lookup : DeviceId → Except String (Option (Bytes 33))}
    (hlook : lookup (deviceOf C identity) = .ok (some (publicKeySec1 C identity))) :
    verifyPullRequest C codec bytes nowMs lookup =
      if req.version ≠ pullVersion then .error "Unsupported pull protocol version"
      else if (nowMs - req.issuedAtMs).natAbs > maxRequestSkewMs then .error "Pull request expired"
      else .ok (deviceOf C identity, req) := by
  rw [signPullRequest] at hsign
  cases henc : codec.encodeRequest req with
  | error error => simp [henc] at hsign
  | ok payload =>
    rw [henc] at hsign
    obtain rfl := Except.ok.inj hsign
    obtain ⟨op, hop, hbody, hver⟩ := sealPayload_read hseal pullRequestStoreId payload identity hlc
    simp only [verifyPullRequest, hop, hbody, ne_eq, not_true_eq_false, if_false, hlook, hver,
      codec.decodeRequest_encodeRequest req payload henc]

/-- A sealed page passes the checks of any puller of the sealing server, up to version and
size. -/
theorem verifyPullPage_sealed (hseal : SealsVerify C) {page : PullPage} {identity : C.Secret} {hlc : Hlc}
    {bytes : List Byte} (hsign : sealPullPage C codec page identity hlc = .ok bytes) (limits : PageLimits) :
    verifyPullPage C codec limits bytes (deviceOf C identity) (publicKeySec1 C identity) =
      if page.version ≠ pullVersion then .error "unsupported v3 pull page version"
      else if page.backfill.length > limits.pageLimitMax ∨ page.keyed.length > limits.pageLimitMax then
        .error "oversized v3 pull page"
      else .ok page := by
  rw [sealPullPage] at hsign
  cases henc : codec.encodePage page with
  | error error => simp [henc] at hsign
  | ok payload =>
    rw [henc] at hsign
    obtain rfl := Except.ok.inj hsign
    obtain ⟨op, hop, hbody, hver⟩ := sealPayload_read hseal pullPageStoreId payload identity hlc
    simp only [verifyPullPage, hop, hbody, ne_eq, not_true_eq_false, if_false, hver,
      codec.decodePage_encodePage page payload henc]

/-- Whom a pull message is good for. A request is refused by a server that holds and trusts
the requester's key exactly if it has another version, is older or newer than the allowed
skew, or the server's coverage is not primed; which server it was made for does not matter. A
page served to one puller is accepted from the same server by every other. -/
theorem pull_exchange_binding (C : Crypto) (codec : PullCodec) (hseal : SealsVerify C) :
    (∀ (identity : C.Secret) (req : PullRequest) (hlc : Hlc) (bytes : List Byte) (other : PullGate),
      signPullRequest C codec req identity hlc = .ok bytes →
      other.lookupPeerSec1 (deviceOf C identity) = .ok (some (publicKeySec1 C identity)) →
      other.isPeerTrusted (deviceOf C identity) = .ok true →
      ((∀ accepted, authenticatePullRequest C codec other bytes ≠ .ok accepted) ↔
        req.version ≠ pullVersion ∨ maxRequestSkewMs < (other.nowMs - req.issuedAtMs).natAbs ∨
          other.isCoveragePrimed ≠ .ok true)) ∧
    (∀ (identity : C.Secret) (limits : PageLimits) (socket : MeshPullSocket) (req : PullRequest)
      (page : PullPage) (hlc : Hlc) (bytes : List Byte), socket.Bounded →
      servePull limits socket req = .ok page → sealPullPage C codec page identity hlc = .ok bytes →
      verifyPullPage C codec limits bytes (deviceOf C identity) (publicKeySec1 C identity) = .ok page) := by
  constructor
  · intro identity req hlc bytes other hsign hlook htrust
    have hver := verifyPullRequest_sealed hseal hsign other.nowMs hlook
    by_cases hvers : req.version ≠ pullVersion
    · refine iff_of_true (fun accepted => ?_) (Or.inl hvers)
      rw [if_pos hvers] at hver
      simp only [authenticatePullRequest, hver]
      split <;> nofun
    · rw [if_neg hvers] at hver
      by_cases hskew : (other.nowMs - req.issuedAtMs).natAbs > maxRequestSkewMs
      · refine iff_of_true (fun accepted => ?_) (Or.inr (Or.inl hskew))
        rw [if_pos hskew] at hver
        simp only [authenticatePullRequest, hver]
        split <;> nofun
      · rw [if_neg hskew] at hver
        simp only [authenticatePullRequest, hver, htrust]
        cases hprimed : other.isCoveragePrimed with
        | error error => exact iff_of_true nofun (Or.inr (Or.inr nofun))
        | ok primed =>
          cases primed with
          | false => exact iff_of_true nofun (Or.inr (Or.inr (by simp)))
          | true =>
            refine iff_of_false (fun h => h _ rfl) ?_
            rintro (h | h | h)
            · exact hvers h
            · exact hskew h
            · exact h rfl
  · intro identity limits socket req page hlc bytes hs hpage hsign
    obtain ⟨hvers, hback, hkey⟩ := servePull_within hs hpage
    rw [verifyPullPage_sealed hseal hsign, if_neg (by simpa using hvers), if_neg (by omega)]

end

/-! ## Two servers, two pullers -/

def byteCodec (req : PullRequest) (page : PullPage) : PullCodec where
  encodeRequest := fun r => if r = req then .ok ⟨[0], by decide⟩ else .error "not written"
  decodeRequest := fun bytes => if bytes = [0] then .ok req else .error "not read"
  decodeRequest_encodeRequest := fun r payload h => by
    split_ifs at h with hr
    obtain rfl := Except.ok.inj h
    rw [if_pos rfl, hr]
  encodePage := fun p => if p = page then .ok ⟨[1], by decide⟩ else .error "not written"
  decodePage := fun bytes => if bytes = [1] then .ok page else .error "not read"
  decodePage_encodePage := fun p payload h => by
    split_ifs at h with hp
    obtain rfl := Except.ok.inj h
    rw [if_pos rfl, hp]

def claimRequest (coverage : CoverageVector) : PullRequest :=
  ⟨pullVersion, coverage, some zeroEpoch, 0, none, 8192, false, none, 1000⟩

def claimNine : CoverageVector where
  claims := (∅ : SortedMap DeviceId OrderKey).insert (padTo 32 [9]) (plainPut (padTo 32 [9]) 10).orderKey
  own := by
    intro origin key h
    rw [SortedMap.get?_insert] at h
    split_ifs at h with ho
    · obtain rfl := Option.some.inj h
      rw [ho]
      decide +kernel
    · simp at h

def nineServer : MeshPullSocket :=
  (PageReads.atomic (plainLog [plainPut (padTo 32 [9]) 10])).serveState (padTo 32 [8])

/-- The page served to a puller that claims the op, at an arrival it has passed. -/
def passedPage : PullPage :=
  (servePull .shipped nineServer
    { claimRequest claimNine with relayEpoch := some (fill 32 9), relayAfter := 1 }).toOption.getD
    (resetPullPage nineServer.relayStreamState)

def trustingGate : PullGate where
  nowMs := 2000
  lookupPeerSec1 := fun id => .ok (if id = padTo 32 [7] then some (padTo 33 (padTo 32 [7]).1) else none)
  isPeerTrusted := fun id => .ok (id = padTo 32 [7])
  isCoveragePrimed := .ok true

def sevenRequest : List Byte :=
  (signPullRequest plainCrypto (byteCodec (claimRequest .new) passedPage) (claimRequest .new) (padTo 32 [7])
    5).toOption.getD []

def eightPage : List Byte :=
  (sealPullPage plainCrypto (byteCodec (claimRequest .new) passedPage) passedPage (padTo 32 [8]) 5).toOption.getD
    []

/-- Any trusting server takes the request. A puller that lacks the op takes the page made for
one that claims it: the page is complete, carries nothing and moves the cursor past the op. -/
theorem pull_messages_replayed :
    (authenticatePullRequest plainCrypto (byteCodec (claimRequest .new) passedPage) trustingGate
      sevenRequest).toOption =
      some (padTo 32 [7], claimRequest .new) ∧
    (verifyPullPage plainCrypto (byteCodec (claimRequest .new) passedPage) .shipped eightPage (padTo 32 [8])
      (padTo 33 (padTo 32 [8]).1)).toOption = some passedPage ∧
    passedPage.keyed = [] ∧ passedPage.backfill = [] ∧ passedPage.nextRelaySeq = 1 ∧ passedPage.complete = true ∧
    (servePull .shipped nineServer (claimRequest .new)).toOption.map (·.keyed.length) = some 1 := by
  decide +kernel

theorem pull_exchange_binding_stale :
    (authenticatePullRequest plainCrypto (byteCodec (claimRequest .new) passedPage)
      { trustingGate with nowMs := 121001 } sevenRequest).toOption = none := by
  have hnone := ((pull_exchange_binding plainCrypto (byteCodec (claimRequest .new) passedPage) sealOp_verify).1
    (padTo 32 [7]) (claimRequest .new) 5 sevenRequest { trustingGate with nowMs := 121001 } (by decide +kernel)
    (by decide +kernel) (by decide +kernel)).2 (Or.inr (Or.inl (by decide)))
  cases hcall : authenticatePullRequest plainCrypto (byteCodec (claimRequest .new) passedPage)
      { trustingGate with nowMs := 121001 } sevenRequest with
  | error refusal => rfl
  | ok accepted => exact absurd hcall (hnone accepted)

end ProxyNode
