import ProxyNode.Proofs.SignedAsk
import ProxyNode.Spec.AskNonces

/-! A signed ask is admitted once. Its nonce is forgotten only a day after it was seen, and a
proof that was live then has expired by that time. -/

namespace ProxyNode.OAuth

open List

variable {P : AskCrypto}

/-! ## One check -/

/-- A check notes the nonce of a proof that is live, or nothing. -/
theorem AskCheck.run_cases (check : AskCheck) (nonces : AskNonces) :
    check.run P nonces = (nonces, none) ∨
      ∃ proof : AskProof, check.nowSecs ≤ proof.expiresAt ∧
        proof.expiresAt ≤ check.nowSecs + askLifetimeSecs + clockSkewSecs ∧
        check.run P nonces = ((nonces.firstSighting proof.nonce proof.keyId check.nowSecs).1,
          some (proof, (nonces.firstSighting proof.nonce proof.keyId check.nowSecs).2)) := by
  unfold AskCheck.run
  split
  · next sender proof hver =>
    right
    rcases verify_cases hver with ⟨-, heq⟩ | ⟨proof', address, -, -, hlive, hlong, -, hprf⟩
    · cases heq
    · obtain ⟨heq, -⟩ := verifyProof_ok hprf
      obtain rfl := Option.some.inj (Prod.mk.inj heq).2
      exact ⟨proof, hlive, hlong, rfl⟩
  · exact .inl rfl

theorem AskNonces.firstSighting_cases (nonces : AskNonces) (nonce keyId : Text) {nowSecs : ℕ}
    (hnow : nowSecs < 2 ^ 62) :
    (∃ row, (nonces.remembered nowSecs).get? nonce = some row ∧
        nonces.firstSighting nonce keyId nowSecs = (nonces.remembered nowSecs, false)) ∨
      (nonces.remembered nowSecs).get? nonce = none ∧
        nonces.firstSighting nonce keyId nowSecs =
          ((nonces.remembered nowSecs).insert nonce ⟨keyId, nowSecs⟩, true) := by
  have hcolumn : min (nowSecs : ℤ) (2 ^ 63 - 1) = nowSecs := min_eq_left (by omega)
  unfold AskNonces.firstSighting
  rw [hcolumn]
  dsimp only
  cases hget : (nonces.remembered nowSecs).get? nonce with
  | none => exact .inr ⟨rfl, if_neg nofun⟩
  | some row => exact .inl ⟨row, rfl, if_pos rfl⟩

/-! ## Nonces that count -/

def Known (nonces : AskNonces) (proof : AskProof) (now : ℕ) : Prop :=
  now ≤ proof.expiresAt → ∃ row, nonces.get? proof.nonce = some row ∧
    (proof.expiresAt : ℤ) ≤ row.seenAt + askLifetimeSecs + clockSkewSecs

variable {nonces : AskNonces} {proof : AskProof} {last now : ℕ}

/-- What is forgotten is the nonce of an expired proof. -/
theorem Known.remembered (h : Known nonces proof last) (hnow : last ≤ now) :
    Known (nonces.remembered now) proof now := by
  intro hlive
  obtain ⟨row, hget, hrow⟩ := h (hnow.trans hlive)
  refine ⟨row, ?_, hrow⟩
  have hkept : ¬ row.seenAt < now - nonceMemorySecs := by
    simp only [askLifetimeSecs, clockSkewSecs] at hrow
    simp only [nonceMemorySecs]
    omega
  rw [AskNonces.remembered, SortedMap.get?_retain, hget, Option.filter_some, if_pos (by simpa using hkept)]

theorem Known.insert (h : Known nonces proof now) {nonce : Text} (hnew : nonces.get? nonce = none)
    (row : NonceRow) : Known (nonces.insert nonce row) proof now := by
  intro hlive
  obtain ⟨old, hget, hold⟩ := h hlive
  have hoth : proof.nonce ≠ nonce := by
    rintro heq
    rw [heq, hnew] at hget
    cases hget
  exact ⟨old, by rw [SortedMap.get?_insert, if_neg hoth, hget], hold⟩

/-- A proof whose nonce is known is not admitted again. -/
theorem Known.not_admitted (h : Known nonces proof last) {checks : List AskCheck}
    (hlast : ∀ check ∈ checks, last ≤ check.nowSecs) (htimes : checks.Pairwise (·.nowSecs ≤ ·.nowSecs))
    (hbd : ∀ check ∈ checks, check.nowSecs < 2 ^ 62) : proof ∉ admittedProofs P nonces checks := by
  induction checks generalizing nonces last with
  | nil => exact not_mem_nil
  | cons check checks ih =>
    obtain ⟨hnext, hrest⟩ := pairwise_cons.1 htimes
    have hbd' : ∀ c ∈ checks, c.nowSecs < 2 ^ 62 := fun c hc => hbd c (mem_cons_of_mem _ hc)
    rw [admittedProofs]
    rcases check.run_cases nonces (P := P) with hrun | ⟨found, hlive, -, hrun⟩
    · rw [hrun]
      exact ih h (fun c hc => hlast c (mem_cons_of_mem _ hc)) hrest hbd'
    · rw [hrun]
      have hkn := h.remembered (hlast check mem_cons_self)
      rcases nonces.firstSighting_cases found.nonce found.keyId (hbd check mem_cons_self) with
        ⟨row, hget, hsight⟩ | ⟨hget, hsight⟩
      · rw [hsight]
        exact ih hkn hnext hrest hbd'
      · rw [hsight]
        refine not_mem_append (fun hmem => ?_) (ih (hkn.insert hget _) hnext hrest hbd')
        obtain rfl := mem_singleton.1 hmem
        obtain ⟨row, hrow, -⟩ := hkn hlive
        rw [hget] at hrow
        cases hrow

/-- Over checks at non-decreasing times no proof is verified and seen for the first time twice. -/
theorem admitted_once (P : AskCrypto) (nonces : AskNonces) (checks : List AskCheck)
    (htimes : checks.Pairwise (·.nowSecs ≤ ·.nowSecs)) (hbd : ∀ check ∈ checks, check.nowSecs < 2 ^ 62) :
    (admittedProofs P nonces checks).Nodup := by
  induction checks generalizing nonces with
  | nil => exact List.nodup_nil
  | cons check checks ih =>
    obtain ⟨hnext, hrest⟩ := List.pairwise_cons.1 htimes
    have hbd' : ∀ c ∈ checks, c.nowSecs < 2 ^ 62 := fun c hc => hbd c (List.mem_cons_of_mem _ hc)
    rw [admittedProofs]
    rcases check.run_cases nonces (P := P) with hrun | ⟨found, -, hlong, hrun⟩
    · rw [hrun]
      exact ih _ hrest hbd'
    · rw [hrun]
      rcases nonces.firstSighting_cases found.nonce found.keyId (hbd check List.mem_cons_self) with
        ⟨row, -, hsight⟩ | ⟨-, hsight⟩
      · rw [hsight]
        exact ih _ hrest hbd'
      · rw [hsight]
        have hlong' : (found.expiresAt : ℤ) ≤ check.nowSecs + askLifetimeSecs + clockSkewSecs := by
          exact_mod_cast hlong
        have hkn : Known ((nonces.remembered check.nowSecs).insert found.nonce ⟨found.keyId, check.nowSecs⟩)
            found check.nowSecs := fun _ => ⟨_, SortedMap.get?_insert_self _ _ _, hlong'⟩
        exact List.nodup_cons.2 ⟨hkn.not_admitted hnext hrest hbd', ih _ hrest hbd'⟩

def amyCheck (nowSecs : ℕ) : AskCheck := ⟨nowSecs, amyKeys, askWith amyScope, "bob.proxy.ing".toList, amyParty⟩

/-- The ask of amy comes in three times and is admitted the first time. -/
theorem admitted_once_of_three :
    (admittedProofs amyCrypto ∅ [amyCheck 100, amyCheck 100, amyCheck 600]).length = 1 ∧
      (admittedProofs amyCrypto ∅ [amyCheck 100, amyCheck 100, amyCheck 600]).Nodup :=
  ⟨by decide +kernel, admitted_once amyCrypto ∅ _ (by decide) (by decide)⟩

end ProxyNode.OAuth
