import ProxyNode.Spec.Consent

/-! What the consent page names is where the redirect goes, unless the authority holds a
backslash or ends in a control character, the URL parser refuses the uri, or it gives the host
another spelling than the uri has. With a backslash the two agree only where the host is written
twice. -/

namespace ProxyNode.OAuth

open Text List

/-! ## Host and port -/

variable {a text : Text}

theorem splitHost_port {inside : Bool} {port : Text} (h : splitHost inside a = (text, some port)) :
    a = text ++ ':' :: port := by
  induction a generalizing inside text with
  | nil => cases h
  | cons c a ih =>
    rw [splitHost] at h
    split_ifs at h with hcol
    · obtain ⟨rfl, hport⟩ := Prod.mk.inj h
      rw [hcol.1, Option.some.inj hport]
      rfl
    · obtain ⟨hhost, hport⟩ := Prod.mk.inj h
      rw [← hhost, cons_append, ← ih (Prod.ext rfl hport)]

/-- Without a port the text is the whole, and a `:` in it stands in a bracket. -/
theorem splitHost_whole {inside : Bool} (h : splitHost inside a = (text, none)) :
    text = a ∧ ∀ x y, a = x ++ ':' :: y → bracketOpen inside x = true := by
  induction a generalizing inside text with
  | nil =>
    obtain ⟨rfl, -⟩ := Prod.mk.inj h
    exact ⟨rfl, fun x y hxy => by simp at hxy⟩
  | cons c a ih =>
    rw [splitHost] at h
    split_ifs at h with hcol
    · cases (Prod.mk.inj h).2
    · obtain ⟨hhost, hport⟩ := Prod.mk.inj h
      obtain ⟨htext, hopen⟩ := ih (Prod.ext rfl hport)
      refine ⟨hhost.symm.trans (congrArg _ htext), fun x y hxy => ?_⟩
      cases x with
      | nil =>
        obtain ⟨rfl, -⟩ := cons.inj hxy
        rw [not_and, Bool.not_eq_false] at hcol
        exact hcol rfl
      | cons d x =>
        obtain ⟨rfl, hrest⟩ := cons.inj hxy
        exact hopen x y hrest

theorem bracketOpen_append (inside : Bool) (x y : Text) :
    bracketOpen inside (x ++ y) = bracketOpen (bracketOpen inside x) y := foldl_append

/-- A bracket stays open over what does not close it. -/
theorem bracketOpen_of_open {y : Text} (h : ']' ∉ y) : bracketOpen true y = true := by
  induction y with
  | nil => rfl
  | cons c y ih =>
    have hc : c ≠ ']' := fun heq => h (heq ▸ mem_cons_self)
    have hstep : bracketStep true c = true := by rw [bracketStep, if_neg hc, ite_self]
    rw [bracketOpen, foldl_cons, hstep]
    exact ih fun hmem => h (mem_cons_of_mem _ hmem)

/-- How the port is taken off: it is a colon and digits, or empty where the name has no such end. -/
def TakenOff (name port : Text) : Prop :=
  (∃ digits : Text, digits.all Char.isDigit = true ∧ port = ':' :: digits) ∨
    port = [] ∧ ∀ x digits : Text, name = x ++ ':' :: digits → digits.all Char.isDigit = false

theorem withoutPort_iff {name : Text} :
    withoutPort a = name ↔ ∃ port, a = name ++ port ∧ TakenOff name port := by
  have hcol : ∀ digits : Text, digits.all Char.isDigit = true → ':' ∉ digits :=
    fun digits hall hmem => absurd (all_eq_true.1 hall _ hmem) (by decide)
  constructor
  · rintro rfl
    unfold withoutPort
    cases hspl : rsplitOnce ':' a with
    | none =>
      refine ⟨[], (append_nil a).symm, .inr ⟨rfl, fun x digits heq => ?_⟩⟩
      by_contra hall
      have heq : a = x ++ ':' :: digits := heq
      rw [heq, rsplitOnce_append _ (hcol digits (Bool.of_not_eq_false hall))] at hspl
      cases hspl
    | some parts =>
      obtain ⟨x, y⟩ := parts
      obtain ⟨heq, hnot⟩ := rsplitOnce_eq_some hspl
      rw [Option.filter_some]
      split_ifs with hall
      · exact ⟨':' :: y, heq, .inl ⟨y, hall, rfl⟩⟩
      · refine ⟨[], (append_nil a).symm, .inr ⟨rfl, fun x' digits heq' => ?_⟩⟩
        by_contra hdgs
        have heq' : a = x' ++ ':' :: digits := heq'
        rw [heq', rsplitOnce_append _ (hcol digits (Bool.of_not_eq_false hdgs))] at hspl
        obtain ⟨rfl, rfl⟩ := Prod.mk.inj (Option.some.inj hspl)
        exact hdgs (Bool.eq_false_iff.2 hall)
  · rintro ⟨port, rfl, ⟨digits, hall, rfl⟩ | ⟨rfl, hnone⟩⟩
    · rw [withoutPort, rsplitOnce_append _ (hcol digits hall), Option.filter_some, if_pos hall]
      rfl
    · rw [append_nil, withoutPort]
      cases hspl : rsplitOnce ':' name with
      | none => rfl
      | some parts =>
        rw [Option.filter_some, if_neg (by rw [hnone _ _ (rsplitOnce_eq_some hspl).1]; decide)]
        rfl

/-- The page and the parser take the port off the same host. -/
theorem host_of_splitHost {port : Option Text} (h : splitHost false a = (text, port))
    (hport : port.all portIsValid = true) (hclosed : bracketOpen false text = false) :
    withoutPort a = text := by
  cases port with
  | some port =>
    exact withoutPort_iff.2 ⟨_, splitHost_port h, .inl ⟨port, (Bool.and_eq_true_iff.1 hport).1, rfl⟩⟩
  | none =>
    obtain ⟨rfl, hopen⟩ := splitHost_whole h
    refine withoutPort_iff.2 ⟨[], (append_nil text).symm, .inr ⟨rfl, fun x digits heq => ?_⟩⟩
    by_contra hall
    -- a number behind the last colon would be inside a bracket that nothing closes
    have hbracket : ']' ∉ ':' :: digits := by
      intro hmem
      rcases mem_cons.1 hmem with hc | hc
      · cases hc
      · exact absurd (all_eq_true.1 (Bool.of_not_eq_false hall) _ hc) (by decide)
    rw [heq, bracketOpen_append, hopen x digits heq, bracketOpen_of_open hbracket] at hclosed
    cases hclosed

/-! ## The authority -/

theorem strippedEnd_append (h : strippedEnd a = a) (b : Text) :
    strippedEnd (a ++ b) = a ++ strippedEnd b := by
  unfold strippedEnd at h ⊢
  rw [reverse_append, dropWhile_append]
  cases hb : b.reverse.dropWhile isC0OrSpace with
  | nil => simpa using h
  | cons c rest => simp

theorem strippedEnd_eq (h : a.getLast?.any isC0OrSpace = false) : strippedEnd a = a := by
  have hkept : a.reverse.dropWhile isC0OrSpace = a.reverse := by
    rw [← head?_reverse] at h
    cases hr : a.reverse with
    | nil => rfl
    | cons c rest => rw [dropWhile_cons_of_neg (by simpa [hr] using h)]
  rw [strippedEnd, hkept, reverse_reverse]

variable {uri : Text}

theorem allowed_scheme (h : redirectUriIsAllowed uri = true) :
    ∃ scheme rest, (scheme = "https://".toList ∨ scheme = "http://".toList) ∧ uri = scheme ++ rest ∧
      rest.head? ≠ some '/' ∧ ' ' ∉ uri := by
  unfold redirectUriIsAllowed at h
  split_ifs at h with hbad
  rw [Bool.or_eq_true, not_or] at hbad
  have hblk : ' ' ∉ uri := fun hmem => hbad.2 (any_eq_true.2 ⟨' ', hmem, by decide⟩)
  split at h
  · next rest hrest =>
    refine ⟨_, rest, .inl rfl, (isPrefixOf?_eq_some_iff_append_eq.1 hrest).symm, ?_, hblk⟩
    intro hsl
    simp [hsl] at h
  · split at h
    · cases h
    · next rest hrest =>
      refine ⟨_, rest, .inr rfl, (isPrefixOf?_eq_some_iff_append_eq.1 hrest).symm, ?_, hblk⟩
      intro hsl
      cases rest with
      | nil => cases hsl
      | cons c rest =>
        obtain rfl := Option.some.inj hsl
        have hnone : takeWhile (fun c => c != '/' && c != '?') ('/' :: rest) = [] := rfl
        rw [hnone] at h
        exact absurd h (by decide)

theorem behindScheme_append {scheme : Text} (h : scheme = "https://".toList ∨ scheme = "http://".toList)
    (t : Text) : behindScheme (scheme ++ t) = some t := by
  rcases h with rfl | rfl <;> rfl

def PlainAuthority (uri : Text) : Prop :=
  '\\' ∉ redirectAuthority uri ∧ (redirectAuthority uri).getLast?.any isC0OrSpace = false
deriving Decidable

/-- What ends an authority is still there when the end of the uri is stripped. -/
theorem strippedEnd_head {tail : Text} (h : ∀ d ∈ tail.head?, d = '/' ∨ d = '?' ∨ d = '#') :
    (strippedEnd tail).head? = tail.head? := by
  cases tail with
  | nil => rfl
  | cons d tail =>
    have hkept : strippedEnd [d] = [d] := by
      rcases h d rfl with rfl | rfl | rfl <;> decide
    rw [← singleton_append, strippedEnd_append hkept]
    rfl

theorem urlAuthority_append {authority tail : Text}
    (hinside : ∀ c ∈ authority, c ≠ '/' ∧ c ≠ '?' ∧ c ≠ '#' ∧ c ≠ '\\')
    (hbhd : ∀ d ∈ tail.head?, (d = '/' ∧ authority ≠ []) ∨ d = '?' ∨ d = '#') :
    urlAuthority (authority ++ tail) = authority := by
  have hdrop : (authority ++ tail).dropWhile (fun c => c == '/' || c == '\\') = authority ++ tail := by
    cases authority with
    | nil =>
      cases tail with
      | nil => rfl
      | cons d tail =>
        refine dropWhile_cons_of_neg ?_
        rcases hbhd d rfl with ⟨-, hne⟩ | rfl | rfl
        · exact absurd rfl hne
        · decide
        · decide
    | cons c authority =>
      obtain ⟨hsl, -, -, hbsl⟩ := hinside c mem_cons_self
      exact dropWhile_cons_of_neg (by simp [hsl, hbsl])
  rw [urlAuthority, hdrop, takeWhile_append_of_pos fun c hc => by simp [hinside c hc]]
  cases tail with
  | nil => exact append_nil _
  | cons d tail =>
    rw [takeWhile_cons_of_neg, append_nil]
    rcases hbhd d rfl with ⟨rfl, -⟩ | rfl | rfl <;> decide

theorem urlAuthority_of_plain (halw : redirectUriIsAllowed uri = true) (h : PlainAuthority uri) :
    ∃ rest, behindScheme (strippedEnd uri) = some rest ∧ urlAuthority rest = redirectAuthority uri := by
  obtain ⟨scheme, rest, hsch, rfl, hsl, -⟩ := allowed_scheme halw
  have hstripped : strippedEnd scheme = scheme := by
    rcases hsch with rfl | rfl <;> decide
  have hrest : (behindScheme (scheme ++ rest)).getD (scheme ++ rest) = rest := by
    rw [behindScheme_append hsch, Option.getD_some]
  obtain ⟨hbsl, hend⟩ := h
  rw [redirectAuthority, hrest] at hbsl hend ⊢
  refine ⟨_, by rw [strippedEnd_append hstripped, behindScheme_append hsch], ?_⟩
  generalize hauth : rest.takeWhile (fun c => c != '/' && c != '?' && c != '#') = authority at *
  generalize htail : rest.dropWhile (fun c => c != '/' && c != '?' && c != '#') = tail
  have hspl : rest = authority ++ tail := by rw [← hauth, ← htail, takeWhile_append_dropWhile]
  have hdelimiter : ∀ d ∈ tail.head?, d = '/' ∨ d = '?' ∨ d = '#' := by
    intro d hd
    have hnot := head?_dropWhile_not (fun c => c != '/' && c != '?' && c != '#') rest
    rw [htail, hd] at hnot
    simpa [or_iff_not_imp_left] using hnot
  rw [hspl, strippedEnd_append (strippedEnd_eq hend)]
  apply urlAuthority_append
  · intro c hc
    have hc' : c ≠ '\\' := fun heq => hbsl (heq ▸ hc)
    rw [← hauth] at hc
    simpa [and_assoc, hc'] using mem_takeWhile_imp hc
  · rw [strippedEnd_head hdelimiter]
    refine fun d hd => (hdelimiter d hd).imp (fun hc => ⟨hc, ?_⟩) id
    rintro rfl
    rw [hspl, nil_append, hd, hc] at hsl
    exact hsl rfl

/-- Where the authority is plain, the page shows the text the parser finds. -/
theorem redirectHost_of_plain {P : HostParser} {host : Text} (halw : redirectUriIsAllowed uri = true)
    (hpl : PlainAuthority uri) (htext : urlHostText uri = some text) (hhost : P.parse text = some host) :
    redirectHost uri = text := by
  obtain ⟨rest, hrest, hauth⟩ := urlAuthority_of_plain halw hpl
  rw [urlHostText, hrest] at htext
  dsimp only at htext
  rw [hauth] at htext
  split_ifs at htext with hval
  obtain rfl := Option.some.inj htext
  exact host_of_splitHost rfl hval.2 (P.closed _ _ hhost)

/-! ## What the page names -/

def NamesDestination (L : Lowercase) (P : HostParser) (uri : Text) : Prop :=
  ∃ host, P.urlHost uri = some host ∧ (redirectOrigin L uri = thisMachine ↔ isLoopback host = true) ∧
    (isLoopback host = false → redirectOrigin L uri = L.lower host)

/-- The text spells the host as the parser gives it: a loopback host exactly, others up to case. -/
def Spells (L : Lowercase) (text host : Text) : Prop :=
  isLoopback text = isLoopback host ∧ (isLoopback host = false → L.lower text = L.lower host)
deriving Decidable

/-- Behind a backslash the parser is past the authority. The page reads on, to the last `@`, and
finds the host if it is written a second time there. -/
def WrittenAgain (L : Lowercase) (authority host : Text) : Prop :=
  ∃ front name port, authority = front ++ '@' :: (name ++ port) ∧ '\\' ∈ front ∧ '@' ∉ name ++ port ∧
    TakenOff name port ∧ Spells L name host

theorem behindUserinfo_cases (t : Text) :
    behindUserinfo t = t ∨ ∃ front, t = front ++ '@' :: behindUserinfo t ∧ '@' ∉ behindUserinfo t := by
  unfold behindUserinfo
  cases hspl : rsplitOnce '@' t with
  | none => exact .inl rfl
  | some parts => exact .inr ⟨parts.1, rsplitOnce_eq_some hspl⟩

theorem mem_behindUserinfo {t : Text} {c : Char} (h : c ∈ behindUserinfo t) : c ∈ t := by
  rcases behindUserinfo_cases t with heq | ⟨front, heq, -⟩
  · exact heq ▸ h
  · rw [heq]
    exact mem_append_right _ (mem_cons_of_mem _ h)

theorem mem_of_last {t : Text} {c : Char} (h : t.getLast? = some c) : c ∈ '@' :: behindUserinfo t := by
  rcases behindUserinfo_cases t with heq | ⟨front, heq, -⟩
  · rw [heq]
    exact mem_cons_of_mem _ (mem_of_getLast? h)
  · rw [heq, getLast?_append_cons] at h
    exact mem_of_getLast? h

theorem mem_redirectHost {c : Char} (halw : redirectUriIsAllowed uri = true) (h : c ∈ redirectHost uri) :
    c ∈ uri := by
  obtain ⟨port, heq, -⟩ := withoutPort_iff.1 (rfl : redirectHost uri = _)
  have htkn := mem_behindUserinfo (heq ▸ mem_append_left port h)
  obtain ⟨scheme, rest, hsch, rfl, -, -⟩ := allowed_scheme halw
  rw [redirectAuthority, behindScheme_append hsch, Option.getD_some] at htkn
  exact mem_append_right _ (takeWhile_subset _ htkn)

theorem redirectOrigin_eq_thisMachine (L : Lowercase) (halw : redirectUriIsAllowed uri = true) :
    redirectOrigin L uri = thisMachine ↔ isLoopback (redirectHost uri) = true := by
  obtain ⟨-, -, -, -, -, hblk⟩ := allowed_scheme halw
  unfold redirectOrigin
  dsimp only
  split_ifs with hlb
  · exact iff_of_true rfl hlb
  · refine iff_of_false (fun heq => ?_) hlb
    have hshown : ' ' ∈ L.lower (redirectHost uri) := heq ▸ (by decide : ' ' ∈ thisMachine)
    exact hblk (mem_redirectHost halw ((L.stray _ ' ' rfl).1 hshown))

/-- The page names a host exactly if the text it reads spells it. -/
theorem names_iff_spells (L : Lowercase) (halw : redirectUriIsAllowed uri = true) (host : Text) :
    ((redirectOrigin L uri = thisMachine ↔ isLoopback host = true) ∧
      (isLoopback host = false → redirectOrigin L uri = L.lower host)) ↔ Spells L (redirectHost uri) host := by
  rw [redirectOrigin_eq_thisMachine L halw, ← Bool.eq_iff_iff, Spells]
  refine and_congr_right fun hsame => imp_congr_right fun hoth => ?_
  rw [redirectOrigin, if_neg (by rw [hsame, hoth]; decide)]

theorem toNat_of_stray {c : Char} (h : isStray c = true) : c.toNat ≤ 32 ∨ c.toNat = 92 := by
  rcases Bool.or_eq_true_iff.1 h with h | h
  · exact .inr (of_decide_eq_true h ▸ rfl)
  · exact .inl (of_decide_eq_true h)

/-- A text with a stray character spells no host. -/
theorem Spells.clean {L : Lowercase} {P : HostParser} {host t : Text} {c : Char} (h : Spells L t host)
    (hhost : P.parse text = some host) (hc : isStray c = true) : c ∉ t := by
  intro hmem
  have hnone : ∀ d ∈ host, isStray d = false := by simpa using P.clean _ _ hhost
  cases hlb : isLoopback host with
  | false =>
    have hlower : c ∈ L.lower host := h.2 hlb ▸ (L.stray t c hc).2 hmem
    exact Bool.eq_false_iff.1 (hnone c ((L.stray host c hc).1 hlower)) hc
  | true =>
    have hthree : ∀ s : Text, isLoopback s = true → s.all (!isStray ·) = true := by
      intro s hs
      rcases of_decide_eq_true hs with rfl | rfl | rfl <;> decide
    have hfree := all_eq_true.1 (hthree t (h.1.trans hlb)) c hmem
    rw [hc] at hfree
    cases hfree

/-- A stray character behind the last `@` is shown. -/
theorem mem_redirectHost_of_stray {c : Char} (hc : isStray c = true)
    (hmem : c ∈ behindUserinfo (redirectAuthority uri)) : c ∈ redirectHost uri := by
  obtain ⟨port, heq, htkn⟩ := withoutPort_iff.1 (rfl : redirectHost uri = _)
  rw [heq] at hmem
  refine (mem_append.1 hmem).resolve_right fun hport => ?_
  have hnat := toNat_of_stray hc
  rcases htkn with ⟨digits, hall, rfl⟩ | ⟨rfl, -⟩
  · rcases mem_cons.1 hport with rfl | hdigit
    · exact absurd hc (by decide)
    · have hrng := isDigit_iff.1 (all_eq_true.1 hall c hdigit)
      omega
  · cases hport

theorem writtenAgain {L : Lowercase} {host : Text} (hpl : ¬ PlainAuthority uri)
    (hcln : ∀ c, isStray c = true → c ∉ behindUserinfo (redirectAuthority uri))
    (hspells : Spells L (redirectHost uri) host) : WrittenAgain L (redirectAuthority uri) host := by
  have hend : (redirectAuthority uri).getLast?.any isC0OrSpace = false := by
    rw [← Bool.not_eq_true, Option.any_eq_true]
    rintro ⟨c, hlast, hc⟩
    rcases mem_cons.1 (mem_of_last hlast) with rfl | hmem
    · exact absurd hc (by decide)
    · exact hcln c (Bool.or_eq_true_iff.2 (.inr hc)) hmem
  have hback : '\\' ∈ redirectAuthority uri := by
    by_contra hnot
    exact hpl ⟨hnot, hend⟩
  rcases behindUserinfo_cases (redirectAuthority uri) with hall | ⟨front, heq, hat⟩
  · rw [hall] at hcln
    exact absurd hback (hcln '\\' rfl)
  · obtain ⟨port, hspl, htkn⟩ := withoutPort_iff.1 (rfl : redirectHost uri = _)
    have hfro : '\\' ∈ front := by
      rw [heq] at hback
      refine (mem_append.1 hback).resolve_right fun hmem => ?_
      exact hcln '\\' rfl ((mem_cons.1 hmem).resolve_left (by decide))
    exact ⟨front, redirectHost uri, port, hspl ▸ heq, hfro, hspl ▸ hat, htkn, hspells⟩

/-- The page names where the redirect goes exactly if the URL parser takes the uri and its host is
spelled in the uri as the parser gives it; where the authority has a backslash, behind its last
`@` once more. -/
theorem names_destination_iff (L : Lowercase) (P : HostParser) {uri : Text}
    (halw : redirectUriIsAllowed uri = true) :
    NamesDestination L P uri ↔ ∃ text host, urlHostText uri = some text ∧ P.parse text = some host ∧
      (PlainAuthority uri ∧ Spells L text host ∨ WrittenAgain L (redirectAuthority uri) host) := by
  constructor
  · rintro ⟨host, hfnd, hnames⟩
    obtain ⟨text, htext, hhost⟩ := Option.bind_eq_some_iff.1 hfnd
    have hspells := (names_iff_spells L halw host).1 hnames
    refine ⟨text, host, htext, hhost, ?_⟩
    by_cases hpl : PlainAuthority uri
    · rw [redirectHost_of_plain halw hpl htext hhost] at hspells
      exact .inl ⟨hpl, hspells⟩
    · have hcln : ∀ c, isStray c = true → c ∉ behindUserinfo (redirectAuthority uri) :=
        fun c hc hmem => hspells.clean hhost hc (mem_redirectHost_of_stray hc hmem)
      exact .inr (writtenAgain hpl hcln hspells)
  · rintro ⟨text, host, htext, hhost, hcases⟩
    refine ⟨host, Option.bind_eq_some_iff.2 ⟨text, htext, hhost⟩, (names_iff_spells L halw host).2 ?_⟩
    rcases hcases with ⟨hpl, hspells⟩ | ⟨front, name, port, heq, -, hat, htkn, hspells⟩
    · rwa [redirectHost_of_plain halw hpl htext hhost]
    · have hback : behindUserinfo (redirectAuthority uri) = name ++ port := by
        rw [heq, behindUserinfo, rsplitOnce_append _ hat]
        rfl
      rwa [redirectHost, hback, withoutPort_iff.2 ⟨port, rfl, htkn⟩]

/-! ## Hosts in lower case -/

def asciiLowercase : Lowercase where
  lower := toAsciiLowercase
  stray := by
    intro t c hc
    have hnat := toNat_of_stray hc
    constructor
    · intro hmem
      obtain ⟨d, hd, heq⟩ := List.mem_map.1 hmem
      rcases toLower_cases d with hsame | ⟨hrng, hval⟩
      · exact hsame.symm.trans heq ▸ hd
      · rw [heq] at hval
        omega
    · intro hmem
      rcases toLower_cases c with hsame | ⟨hrng, -⟩
      · exact List.mem_map.2 ⟨c, hmem, hsame⟩
      · omega

def lowercaseHosts : HostParser where
  parse text := if bracketOpen false text || text.any isStray then none else some (toAsciiLowercase text)
  closed := by
    intro text host h
    split_ifs at h with href
    simp only [Bool.or_eq_true, not_or, Bool.not_eq_true] at href
    exact href.1
  clean := by
    intro text host h
    split_ifs at h with href
    simp only [Bool.or_eq_true, not_or, Bool.not_eq_true] at href
    obtain rfl := Option.some.inj h
    rw [List.any_eq_false] at href ⊢
    exact fun c hc hstray => href.2 c ((asciiLowercase.stray text c hstray).1 hc) hstray

theorem names_plain_host :
    redirectOrigin asciiLowercase "https://me@A.example:8443/cb?x".toList = "a.example".toList ∧
      NamesDestination asciiLowercase lowercaseHosts "https://me@A.example:8443/cb?x".toList :=
  ⟨by decide, (names_destination_iff asciiLowercase lowercaseHosts (by decide)).2
    ⟨"A.example".toList, "a.example".toList, by decide, by decide, Or.inl ⟨by decide, by decide⟩⟩⟩

/-- Behind a backslash the page names the host of the userinfo's other side: the browser goes to
`evil.example`. -/
theorem backslash_names_another_host :
    redirectUriIsAllowed "https://evil.example\\@a.example/cb".toList = true ∧
      redirectOrigin asciiLowercase "https://evil.example\\@a.example/cb".toList = "a.example".toList ∧
      lowercaseHosts.urlHost "https://evil.example\\@a.example/cb".toList = some "evil.example".toList ∧
      ¬ NamesDestination asciiLowercase lowercaseHosts "https://evil.example\\@a.example/cb".toList := by
  have hfnd : lowercaseHosts.urlHost "https://evil.example\\@a.example/cb".toList =
      some "evil.example".toList := by
    decide
  refine ⟨by decide, by decide, hfnd, ?_⟩
  rintro ⟨host, hhost, -, hnames⟩
  obtain rfl := Option.some.inj (hfnd.symm.trans hhost)
  exact absurd (hnames (by decide)) (by decide)

end ProxyNode.OAuth
