import ProxyNode.Spec.Kv
import ProxyNode.Spec.RelayAuth

/-! The replay cache of relay requests. A nonce is refused while the cache remembers it, and
the signed bytes carry no time, so a request can come back once it is forgotten. -/

namespace ProxyNode

open Wire

variable {C : Crypto}

variable {key : DeviceId ×ₗ Bytes 32}

/-- What a call can do to the cache: it is refused, or its nonce was not remembered and is
from now on. Either way only what is past the time to live goes. -/
theorem relayRequest_cases (C : Crypto) (call : RelayCall) (replays : RelayReplayCache) {seen : ℕ}
    (hseen : replays.get? key = some seen) (hlive : call.now - seen ≤ relayReplayTtl) :
    (relayRequest C call replays).2.get? key = some seen ∧
      ∀ auth, (relayRequest C call replays).1 = .ok auth → toLex (auth.caller, auth.nonce) ≠ key := by
  simp only [relayRequest]
  cases authenticateRelay C call with
  | error refusal => exact ⟨hseen, nofun⟩
  | ok auth =>
    have hkept : (replays.retain fun _ seen => decide (call.now - seen ≤ relayReplayTtl)).get? key =
      some seen := by
      rw [SortedMap.get?_retain, hseen, Option.filter_some, if_pos (decide_eq_true hlive)]
    simp only [RelayReplayCache.take]
    split_ifs with hcont hfull
    · exact ⟨hkept, nofun⟩
    · exact ⟨hkept, nofun⟩
    · have hne : toLex (auth.caller, auth.nonce) ≠ key := by
        rintro rfl
        exact hcont (by rw [SortedMap.contains, hkept]; rfl)
      refine ⟨by rw [SortedMap.get?_insert, if_neg hne.symm, hkept], fun auth' hauth => ?_⟩
      obtain rfl := Except.ok.inj hauth
      exact hne

variable {replays : RelayReplayCache}

theorem relayRequest_ok {call : RelayCall} {auth : RelayRequestAuth}
    (h : (relayRequest C call replays).1 = .ok auth) :
    (relayRequest C call replays).2.get? (toLex (auth.caller, auth.nonce)) = some call.now := by
  simp only [relayRequest] at h ⊢
  cases hauth : authenticateRelay C call with
  | error refusal => simp [hauth] at h
  | ok auth' =>
    simp only [hauth, RelayReplayCache.take] at h ⊢
    split_ifs at h ⊢
    obtain rfl := Except.ok.inj h
    rw [SortedMap.get?_insert, if_pos rfl]

theorem relayRequests_call {calls : List RelayCall} {x : RelayCall × Except RelayRefusal RelayRequestAuth}
    (hx : x ∈ relayRequests C replays calls) :
    x.1 ∈ calls := by
  induction calls generalizing replays with
  | nil => simp [relayRequests] at hx
  | cons call calls ih =>
    rcases List.mem_cons.1 hx with rfl | hx
    · exact List.mem_cons_self
    · exact List.mem_cons_of_mem _ (ih hx)

/-- While a nonce is remembered no call with it is accepted. -/
theorem relayRequests_remembered {seen : ℕ} (hseen : replays.get? key = some seen) {calls : List RelayCall}
    (htimes : calls.Pairwise (·.now ≤ ·.now)) :
    ∀ x ∈ relayRequests C replays calls, ∀ auth, x.2 = .ok auth → toLex (auth.caller, auth.nonce) = key →
      relayReplayTtl < x.1.now - seen := by
  induction calls generalizing replays with
  | nil => simp [relayRequests]
  | cons call calls ih =>
    obtain ⟨hfst, hrest⟩ := List.pairwise_cons.1 htimes
    by_cases hlive : call.now - seen ≤ relayReplayTtl
    · obtain ⟨hkeep, hoth⟩ := relayRequest_cases C call replays hseen hlive
      intro x hx auth hok hkey
      rcases List.mem_cons.1 hx with rfl | hx
      · exact absurd hkey (hoth auth hok)
      · exact ih hkeep hrest x hx auth hok hkey
    · -- every later call is past the time to live as well
      intro x hx auth hok hkey
      rcases List.mem_cons.1 (relayRequests_call hx) with hcall | hcall
      · rw [hcall]
        omega
      · have := hfst x.1 hcall
        omega

/-- Two accepted calls with one caller and nonce are more than the time to live apart, in
every run at non-decreasing times. -/
theorem relay_requests_apart (C : Crypto) (replays : RelayReplayCache) (calls : List RelayCall)
    (htimes : calls.Pairwise (·.now ≤ ·.now)) :
    (relayRequests C replays calls).Pairwise fun x y => ∀ a b, x.2 = .ok a → y.2 = .ok b →
      a.caller = b.caller → a.nonce = b.nonce → x.1.now + relayReplayTtl < y.1.now := by
  induction calls generalizing replays with
  | nil => exact List.Pairwise.nil
  | cons call calls ih =>
    have hrest := (List.pairwise_cons.1 htimes).2
    refine List.pairwise_cons.2 ⟨fun y hy a b ha hb hclr hnonce => ?_, ih _ hrest⟩
    have hapart := relayRequests_remembered (relayRequest_ok ha) hrest y hy b hb (by rw [hclr, hnonce])
    have hnow : ((call, (relayRequest C call replays).1) : RelayCall × _).1.now = call.now := rfl
    omega

/-! ## One request twice -/

def signedCall (now : ℕ) : RelayCall where
  epoch := some zeroEpoch
  after := 0
  requestBound := 512
  headers :=
    { nonce := some (some (fill 32 5))
      caller := some (padTo 32 [7])
      signature := some (padTo 64 (relayRequestSigningInput relayOpsRequestContext (padTo 32 [7]) (padTo 32 [8])
        zeroEpoch 0 512 (fill 32 5))) }
  requestContext := relayOpsRequestContext
  servingPeer := padTo 32 [8]
  devices := fun id => .ok (if id = padTo 32 [7] then some (padTo 33 (padTo 32 [7]).1) else none)
  now := now

/-- The same signed request is accepted at time zero and again five minutes later. -/
theorem relay_request_accepted_twice :
    (relayRequests plainCrypto ∅ [signedCall 0, signedCall (relayReplayTtl + 1)]).map (·.2) =
      [.ok ⟨zeroEpoch, fill 32 5, padTo 32 [7]⟩, .ok ⟨zeroEpoch, fill 32 5, padTo 32 [7]⟩] := by
  decide +kernel

/-- Within the five minutes the repeat is refused, after them it is not. -/
theorem relay_requests_apart_repeat :
    (relayRequests plainCrypto ∅ [signedCall 0, signedCall relayReplayTtl, signedCall (relayReplayTtl + 1)]).map
        (·.2) =
      [.ok ⟨zeroEpoch, fill 32 5, padTo 32 [7]⟩, .error .conflict,
        .ok ⟨zeroEpoch, fill 32 5, padTo 32 [7]⟩] ∧
    (relayRequests plainCrypto ∅ [signedCall 0, signedCall relayReplayTtl,
      signedCall (relayReplayTtl + 1)]).Pairwise
      fun x y => ∀ a b, x.2 = .ok a → y.2 = .ok b →
        a.caller = b.caller → a.nonce = b.nonce → x.1.now + relayReplayTtl < y.1.now :=
  ⟨by decide +kernel, relay_requests_apart plainCrypto ∅ _ (by decide +kernel)⟩

end ProxyNode
