import Mathlib.Data.Bool.AllAny
import ProxyNode.Sanity.Percent
import ProxyNode.Spec.AddressClient

/-! The redirect comes back to the client with what it was sent with. The address writes its
values behind the query a redirect uri has of its own, and the client reads both: a value there
that does not decode, or a state there when none was asked with, is read as the answer's. -/

namespace ProxyNode.OAuth

open Text Redirect List

/-! ## The url that is sent -/

def pairText (param : String × Text) : Text := param.1.toList ++ '=' :: percentEncode param.2

def sentBehind (separator : Char) : List (String × Text) → Text
  | [] => []
  | param :: params => separator :: pairText param ++ sentBehind '&' params

theorem redirectWith_eq (redirectUri : Text) (params : List (String × Text)) :
    redirectWith redirectUri params = redirectUri ++
      sentBehind (if redirectUri.contains '?' then '&' else '?') (params.filter (·.2 ≠ [])) := by
  unfold redirectWith
  generalize (if redirectUri.contains '?' then '&' else '?') = separator
  induction params generalizing redirectUri separator with
  | nil => exact (append_nil _).symm
  | cons param params ih =>
    obtain ⟨name, value⟩ := param
    rw [foldl_cons]
    by_cases hval : value = []
    · rw [filter_cons_of_neg (by simpa using hval)]
      simpa only [if_pos hval] using ih redirectUri separator
    · rw [filter_cons_of_pos (by simpa using hval)]
      have hrest := ih (redirectUri ++ separator :: name.toList ++ '=' :: percentEncode value) '&'
      simpa only [if_neg hval, sentBehind, pairText, append_assoc, cons_append] using hrest

variable {params : List (String × Text)}

theorem sentBehind_eq {separator : Char} (h : params ≠ []) :
    sentBehind separator params = separator :: ['&'].intercalate (params.map pairText) := by
  induction params generalizing separator with
  | nil => exact absurd rfl h
  | cons param params ih =>
    cases params with
    | nil => rw [sentBehind, sentBehind, append_nil, map_singleton, intercalate_singleton]
    | cons next params =>
      rw [sentBehind, ih (cons_ne_nil _ _), map_cons, map_cons, map_cons,
        intercalate_cons_cons]
      simp

def ownPairs (redirectUri : Text) : List Text :=
  match splitOnce '?' redirectUri with
  | none => []
  | some (_, query) => query.splitOn '&'

def sentNames : List String := ["code", "state", "iss", "client_id"]

theorem mem_pairText {param : String × Text} (h : param.1 ∈ sentNames) {c : Char} (hc : c ∈ pairText param) :
    c ≠ '?' ∧ c ≠ '#' ∧ c ≠ '&' := by
  have hnames : ∀ c ∈ sentNames.flatMap String.toList, c ≠ '?' ∧ c ≠ '#' ∧ c ≠ '&' :=
    all_iff_forall_prop.1 (by decide)
  rw [pairText, mem_append, mem_cons] at hc
  rcases hc with hc | rfl | hc
  · exact hnames c (mem_flatMap.2 ⟨_, h, hc⟩)
  · decide
  · rw [percentEncode_eq] at hc
    refine ⟨?_, ?_, ?_⟩ <;>
    · rintro rfl
      exact absurd (mem_percentEncodeWith hc) (by decide)

/-- The pairs the client reads: those of the uri itself, then those that were sent. -/
theorem read_pairs {redirectUri : Text} (halw : '#' ∉ redirectUri)
    (hnames : ∀ param ∈ params, param.1 ∈ sentNames) (hne : params ≠ []) :
    ∃ address query,
      splitOnce '?' (redirectUri ++ sentBehind (if redirectUri.contains '?' then '&' else '?') params) =
        some (address, query) ∧
      (query.takeWhile (· ≠ '#')).splitOn '&' = ownPairs redirectUri ++ params.map pairText := by
  have hsent : ∀ text ∈ params.map pairText, ∀ c ∈ text, c ≠ '?' ∧ c ≠ '#' ∧ c ≠ '&' := by
    intro text htext c hc
    obtain ⟨param, hparam, rfl⟩ := mem_map.1 htext
    exact mem_pairText (hnames param hparam) hc
  have hbody : ∀ c ∈ ['&'].intercalate (params.map pairText), c ≠ '#' := by
    intro c hc
    rcases mem_intercalate hc with hc | ⟨text, htext, hc⟩
    · rw [mem_singleton.1 hc]
      decide
    · exact (hsent text htext c hc).2.1
  have hspl : (['&'].intercalate (params.map pairText)).splitOn '&' = params.map pairText :=
    splitOn_intercalate '&' (fun text htext hc => (hsent text htext _ hc).2.2 rfl) (by simpa using hne)
  rw [sentBehind_eq hne]
  cases hown : splitOnce '?' redirectUri with
  | none =>
    have hmem := splitOnce_eq_none.1 hown
    rw [if_neg (by simpa using hmem)]
    refine ⟨_, _, splitOnce_append hmem _, ?_⟩
    rw [takeWhile_eq_self_iff.2 (by simpa using hbody), hspl, ownPairs, hown]
    rfl
  | some parts =>
    obtain ⟨address, query⟩ := parts
    obtain ⟨rfl, hnot⟩ := splitOnce_eq_some hown
    rw [if_pos (by simp), append_assoc, cons_append]
    refine ⟨_, _, splitOnce_append hnot _, ?_⟩
    rw [takeWhile_eq_self_iff.2, splitOn, splitOnP_append_cons _ _ (by decide), ownPairs, hown]
    · exact congrArg _ hspl
    · intro c hc
      rw [decide_eq_true_eq]
      rcases mem_append.1 hc with hc | hc
      · rintro rfl
        exact halw (mem_append_right _ (mem_cons_of_mem _ hc))
      · rcases mem_cons.1 hc with rfl | hc
        · decide
        · exact hbody c hc

/-! ## What the client reads -/

theorem nameValue_pairText {param : String × Text} (h : param.1 ∈ sentNames) :
    nameValue (pairText param) = (param.1.toList, percentEncode param.2) := by
  have hnames : ∀ name ∈ sentNames, '=' ∉ name.toList := by decide
  rw [nameValue, pairText, splitOnce_append (hnames _ h)]
  rfl

namespace Redirect

theorem put_sent (redirect : Redirect) (value : Text) :
    redirect.put "code".toList value = { redirect with code := value } ∧
      redirect.put "state".toList value = { redirect with state := some value } ∧
      redirect.put "iss".toList value = { redirect with iss := some value } ∧
      redirect.put "client_id".toList value = { redirect with clientId := some value } := by
  unfold put
  refine ⟨if_pos rfl, ?_, ?_, ?_⟩
  · rw [if_neg (by decide), if_pos rfl]
  · rw [if_neg (by decide), if_neg (by decide), if_pos rfl]
  · rw [if_neg (by decide), if_neg (by decide), if_neg (by decide), if_pos rfl]

theorem put_state (redirect : Redirect) (name value : Text) :
    (redirect.put name value).state = none ↔ redirect.state = none ∧ name ≠ "state".toList := by
  have hkept : name ≠ "state".toList →
      (redirect.state = none ↔ redirect.state = none ∧ name ≠ "state".toList) := fun h => (and_iff_left h).symm
  unfold put
  split_ifs with h₁ h₂ h₃ h₄
  · exact hkept (by rw [h₁]; decide)
  · exact iff_of_false (by simp) fun h => h.2 h₂
  · exact hkept h₂
  · exact hkept h₂
  · exact hkept h₂

theorem readPair_eq (redirect : Redirect) (pair : Text) : redirect.readPair pair =
    (percentDecodeText (nameValue pair).2).map (redirect.put (nameValue pair).1) := rfl

theorem readPairs_put (redirect : Redirect) {params : List (String × Text)}
    (h : ∀ param ∈ params, param.1 ∈ sentNames) :
    (params.map pairText).foldlM readPair redirect =
      some (params.foldl (fun redirect param => redirect.put param.1.toList param.2) redirect) := by
  induction params generalizing redirect with
  | nil => rfl
  | cons param params ih =>
    have hread : redirect.readPair (pairText param) = some (redirect.put param.1.toList param.2) := by
      rw [readPair_eq, nameValue_pairText (h param mem_cons_self), percentEncode_eq]
      dsimp only
      rw [percentDecodeText_encode (by decide), Option.map_some]
    rw [map_cons, foldlM_cons, hread]
    exact ih _ fun other hoth => h other (mem_cons_of_mem _ hoth)

/-- A query is read if all its values decode; a state is read exactly if a pair is named so. -/
theorem readPairs_spec (redirect : Redirect) (pairs : List Text) :
    (¬ (∀ pair ∈ pairs, (percentDecodeText (nameValue pair).2).isSome) ∧ pairs.foldlM readPair redirect = none) ∨
      ∃ next, (∀ pair ∈ pairs, (percentDecodeText (nameValue pair).2).isSome) ∧
        pairs.foldlM readPair redirect = some next ∧
        (next.state = none ↔ redirect.state = none ∧ ∀ pair ∈ pairs, (nameValue pair).1 ≠ "state".toList) := by
  induction pairs generalizing redirect with
  | nil => exact .inr ⟨redirect, nofun, rfl, by simp⟩
  | cons pair pairs ih =>
    rw [foldlM_cons, forall_mem_cons, forall_mem_cons]
    rw [readPair_eq]
    cases hval : percentDecodeText (nameValue pair).2 with
    | none => exact .inl ⟨fun h => Bool.false_ne_true h.1, rfl⟩
    | some value =>
      rcases ih (redirect.put (nameValue pair).1 value) with ⟨hbad, hrest⟩ | ⟨last, hgood, hrest, hstate⟩
      · exact .inl ⟨fun h => hbad h.2, hrest⟩
      · exact .inr ⟨last, ⟨rfl, hgood⟩, hrest, by rw [hstate, put_state, and_assoc]⟩

def sentWith (ask : Ask) (code : Text) : List (String × Text) :=
  [("code", code), ("state", ask.state.getD []), ("iss", ask.issuer), ("client_id", ask.clientId)].filter
    (·.2 ≠ [])

theorem sentWith_names {ask : Ask} {code : Text} : ∀ param ∈ sentWith ask code, param.1 ∈ sentNames := by
  intro param hparam
  have hmem := (mem_filter.1 hparam).1
  simp only [mem_cons, not_mem_nil, or_false] at hmem
  rcases hmem with rfl | rfl | rfl | rfl <;> simp [sentNames]

/-- What is sent replaces what the client has read, but for the state of an ask without one. -/
theorem readPairs_sent (redirect : Redirect) {ask : Ask} {code : Text} (hcode : code ≠ [])
    (hissuer : ask.issuer ≠ []) (hcli : ask.clientId ≠ []) :
    ((sentWith ask code).map pairText).foldlM readPair redirect =
      some ⟨code, if ask.state.getD [] = [] then redirect.state else some (ask.state.getD []), some ask.issuer,
        some ask.clientId⟩ := by
  rw [readPairs_put redirect sentWith_names]
  by_cases hstate : ask.state.getD [] = []
  · have hsent : sentWith ask code = [("code", code), ("iss", ask.issuer), ("client_id", ask.clientId)] := by
      simp [sentWith, hcode, hissuer, hcli, hstate]
    rw [hsent, if_pos hstate]
    simp only [foldl_cons, foldl_nil, put_sent]
  · have hsent : sentWith ask code =
        [("code", code), ("state", ask.state.getD []), ("iss", ask.issuer), ("client_id", ask.clientId)] := by
      simp [sentWith, hcode, hissuer, hcli, hstate]
    rw [hsent, if_neg hstate]
    simp only [foldl_cons, foldl_nil, put_sent]

end Redirect

/-- The query a redirect uri has of its own does not get in the way of the answer: its values
decode, and it names no state if the ask has none. -/
def OwnQueryAside (ask : Ask) : Prop :=
  ∀ pair ∈ ownPairs ask.redirectUri, (percentDecodeText (nameValue pair).2).isSome ∧
    (ask.state.getD [] = [] → (nameValue pair).1 ≠ "state".toList)

instance (ask : Ask) : Decidable (OwnQueryAside ask) := inferInstanceAs (Decidable (∀ pair ∈ _, _ ∧ (_ → _)))

/-- The client reads the uri's own pairs, then what was sent. -/
theorem parse_approvedRedirect {ask : Ask} {code : Text} (halw : redirectUriIsAllowed ask.redirectUri = true)
    (hcode : code ≠ []) :
    parse (approvedRedirect ask code) =
      ((ownPairs ask.redirectUri ++ (sentWith ask code).map pairText).foldlM readPair
        default).filter (·.code ≠ []) := by
  have hfragment : '#' ∉ ask.redirectUri := by
    intro hmem
    simp [redirectUriIsAllowed, hmem] at halw
  have hne : sentWith ask code ≠ [] := by
    refine ne_nil_of_mem (a := ("code", code)) (mem_filter.2 ⟨mem_cons_self, ?_⟩)
    simpa using hcode
  obtain ⟨address, query, hspl, hpairs⟩ := read_pairs hfragment sentWith_names hne
  have hurl : splitOnce '?' (approvedRedirect ask code) = some (address, query) := by
    rw [approvedRedirect, redirectWith_eq]
    exact hspl
  rw [parse, hurl]
  dsimp only
  rw [hpairs]
  cases (ownPairs ask.redirectUri ++ (sentWith ask code).map pairText).foldlM readPair
      default with
  | none => rfl
  | some redirect =>
    rw [Option.filter_some]
    by_cases hemp : redirect.code = [] <;> simp [hemp]

/-- The redirect returns to the client what it was approved with exactly if the uri's own query
does not get in the way. -/
theorem redirect_returns_iff (ask : Ask) (code : Text) (halw : redirectUriIsAllowed ask.redirectUri = true)
    (hcode : code ≠ []) (hissuer : ask.issuer ≠ []) (hcli : ask.clientId ≠ []) :
    Redirect.parse (approvedRedirect ask code) =
        some ⟨code, ask.state.filter (· ≠ []), some ask.issuer, some ask.clientId⟩ ↔ OwnQueryAside ask := by
  rw [parse_approvedRedirect halw hcode, List.foldlM_append]
  rcases Redirect.default.readPairs_spec (ownPairs ask.redirectUri) with
    ⟨hbad, hread⟩ | ⟨own, hgood, hread, hstate⟩
  · rw [hread]
    exact iff_of_false nofun fun h => hbad fun pair hpair => (h pair hpair).1
  · rw [hread]
    have hsent := own.readPairs_sent hcode hissuer hcli
    rw [Option.bind_eq_bind, Option.bind_some, hsent, Option.filter_some, if_pos (by simpa using hcode)]
    by_cases hgiven : ask.state.getD [] = []
    · have hnone : ask.state.filter (· ≠ []) = none := by
        cases hask : ask.state with
        | none => rfl
        | some state =>
          rw [hask, Option.getD_some] at hgiven
          rw [hgiven]
          rfl
      rw [if_pos hgiven, hnone]
      constructor
      · intro h
        have hown : own.state = none := congrArg Redirect.state (Option.some.inj h)
        exact fun pair hpair => ⟨hgood pair hpair, fun _ => (hstate.1 hown).2 pair hpair⟩
      · intro h
        rw [hstate.2 ⟨rfl, fun pair hpair => (h pair hpair).2 hgiven⟩]
    · have hsome : ask.state.filter (· ≠ []) = some (ask.state.getD []) := by
        cases hask : ask.state with
        | none =>
          rw [hask] at hgiven
          exact absurd rfl hgiven
        | some state =>
          rw [hask, Option.getD_some] at hgiven
          rw [Option.filter_some, if_pos (by simpa using hgiven), Option.getD_some]
      rw [if_neg hgiven, hsome]
      exact iff_of_true rfl fun pair hpair => ⟨hgood pair hpair, fun h => absurd h hgiven⟩

def askTo (redirectUri : String) (state : Option Text) : Ask where
  id := "ask".toList
  clientId := "client".toList
  clientName := "Client".toList
  issuer := "https://amy.proxy.ing".toList
  redirectUri := redirectUri.toList
  scope := none
  state := state
  codeChallenge := List.replicate 43 'a'
  askedAt := 0
  code := none
  codeIssuedAt := none
  codeUsed := false

theorem redirect_returns_with_query :
    Redirect.parse (approvedRedirect (askTo "https://a.example/?x=1" (some "s t".toList)) "c".toList) =
      some ⟨"c".toList, some "s t".toList, some "https://amy.proxy.ing".toList, some "client".toList⟩ :=
  (redirect_returns_iff (askTo "https://a.example/?x=1" (some "s t".toList)) "c".toList (by decide) (by decide)
    (by decide) (by decide)).2 (by decide)

/-- A byte that is no UTF-8 in the uri's own query loses the answer, and a state there is taken
for the ask's. -/
theorem own_query_in_the_way :
    (redirectUriIsAllowed "https://a.example/?x=%FF".toList = true ∧
        Redirect.parse (approvedRedirect (askTo "https://a.example/?x=%FF" none) "c".toList) = none) ∧
      redirectUriIsAllowed "https://a.example/?state=x".toList = true ∧
        (Redirect.parse (approvedRedirect (askTo "https://a.example/?state=x" none) "c".toList)).map
          Redirect.state = some (some "x".toList) := by
  decide +kernel

end ProxyNode.OAuth
