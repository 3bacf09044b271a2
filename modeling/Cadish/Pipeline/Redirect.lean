import Cadish.Pipeline.Compile
import Cadish.Runes
import Mathlib.Data.List.TakeWhile

/-!
# Redirects

What a request puts into a Location must not choose the host: the rule is expanded a second time
**with nothing of the request but the host and the scheme**, and fires only if both expansions have
one authority. `browserAuthority` reads a Location as the URL standard does, `locationAuthority` as
the code does. **The code takes every scheme for one of the network, and a browser does not**
(`Misread`): `myapp://brand.example\@evil.example/` is on `evil.example`.
-/

namespace Cadish

open Cadishfile List Option Str Bool

/-! ## What is sent -/

variable (addresses : List Str) (s : Str) (b : UInt8)

/-- A byte that `normalizeRedirectLocation` drops: tab, line feed, carriage return, form feed, NUL. -/
def isDroppedByte : Bool := b == 0x09 || b == 0x0a || b == 0x0d || b == 0x0c || b == 0

def trimControls : Str :=
  ((s.dropWhile (· ≤ 0x20)).reverse.dropWhile (· ≤ 0x20)).reverse

def normalizeRedirectLocation : Str :=
  trimControls ((toValidRunes 0 s).filter (!isDroppedByte ·))

/-! ## The authority, as the code reads it -/

def isSchemeByte : Bool := isAlnum b || b == byte '+' || b == byte '.' || b == byte '-'
where
  isAlnum (b : UInt8) : Bool := isAlpha b || (0x30 ≤ b && b ≤ 0x39)
  isAlpha (b : UInt8) : Bool := (0x41 ≤ b && b ≤ 0x5a) || (0x61 ≤ b && b ≤ 0x7a)

/-- `redirectSchemePrefix`: the scheme that a string begins with, and what follows its colon. -/
def schemePrefix : Option (Str × Str) :=
  if s.head?.any isSchemeByte.isAlpha then
    match s.dropWhile isSchemeByte with
    | colon :: rest => if colon = byte ':' then some (s.takeWhile isSchemeByte, rest) else none
    | [] => none
  else none

def isSlash : Bool := b == byte '/' || b == byte '\\'

def foldSlashes : Str := s.map fun b => if b = byte '\\' then byte '/' else b

/-- `redirectAuthorityRest`: the text that begins with the authority, if there is one. -/
def redirectAuthorityRest : Option Str :=
  match schemePrefix s with
  | some (_, rest) => some ((foldSlashes rest).dropWhile (· == byte '/'))
  | none =>
    if hasPrefix (foldSlashes s) (lit "//") then
      some ((foldSlashes s).dropWhile (· == byte '/'))
    else none

def endsAuthority : Bool := b == byte '/' || b == byte '?' || b == byte '#'

def locationAuthority : Option Str :=
  (redirectAuthorityRest s).map (·.takeWhile (!endsAuthority ·))

/-! ## Rules -/

/-- `FindStringSubmatch` of a compiled regex: the match and its groups. -/
abbrev PathRegex := Str → Option (List Str)

structure TargetRule where
  re : Option PathRegex
  sc : Scope
  status : Nat
  target : Str
  noStore : Bool

/-- `normalizeRedirectHost`: an address without scheme, path and port; a wildcard stays one. -/
def normalizeRedirectHost (addr : Str) : Str :=
  let addr := trimSpace addr
  let addr := ((cutString (lit "://") addr).map (·.2)).getD addr
  let addr := addr.takeWhile (!endsAuthority ·)
  let wildcard := hasPrefix addr (lit "*.")
  let addr := normalizeHost (if wildcard then addr.drop 2 else addr)
  if addr = [] then [] else if wildcard then lit "*." ++ addr else addr

def hostSetMatch (patterns : List Str) (host : Str) : Bool :=
  let host := normalizeHost host
  patterns.any fun pat =>
    let pat := toLower pat
    if hasPrefix pat (lit "*.") then hasSuffix host (pat.drop 1) else host = pat

def trustedHosts : List Str :=
  (addresses.map normalizeRedirectHost).filter (· ≠ [])

def canonicalHost : Str :=
  ((trustedHosts addresses).find? fun h => !hasPrefix h (lit "*.")).getD
    (normalizeRedirectHost (addresses.headD []))

/-- `redirectHost`: the host of the request if the site has it, and else the site's own. -/
def redirectHost (req : Request) : Str :=
  if addresses = [] then req.normHost
  else if hostSetMatch (trustedHosts addresses) req.normHost then req.normHost
  else canonicalHost addresses

def schemeOf (tls : Bool) : Str := if tls then lit "https" else lit "http"

namespace TargetRule

variable (r : TargetRule) (addresses : List Str) (classifiers : FinMap Str Classifier) (tls : Bool)

def captures (req : Request) : Option (List Str) :=
  match r.re with
  | none => some []
  | some re => re req.path

def env (req : Request) (capture : List Str) : TemplateEnv :=
  { host := redirectHost addresses req
    path := req.path
    query := canonicalQuery req [] fun _ => true
    capture := capture
    header := req.header
    clientIP := req.clientIP
    geo := req.geo
    geoContinent := req.geoContinent
    geoRegion := req.geoRegion
    device := req.device
    queryParams := req.query
    scheme := schemeOf tls }

def location (c : MatchContext) : Str :=
  normalizeRedirectLocation (expandTemplate r.target
    (env addresses tls c.req ((r.captures c.req).getD [])) (classifyResolver classifiers c))

/-- The authority of the Location that has nothing of a request in it but its host and scheme. -/
def reference (host : Str) : Option Str :=
  locationAuthority (normalizeRedirectLocation (expandTemplate r.target
    { host := host, path := [], query := [], header := ∅, scheme := schemeOf tls } fun _ => none))

def eval (c : MatchContext) : Option Redirect :=
  if c.scopeMatches r.sc = false then none
  else if r.captures c.req = none then none
  else
    let loc := r.location addresses classifiers tls c
    match locationAuthority loc with
    | none => some ⟨r.status, loc, r.noStore⟩
    | some got =>
      if r.reference tls (redirectHost addresses c.req) = some got then
        some ⟨r.status, loc, r.noStore⟩
      else none

end TargetRule

/-! ## Compiling them -/

def redirectAuthorityAllowedToken (name : Str) : Bool :=
  [lit "host", lit "host.base", lit "host.sub"].elem name

def redirectAuthorityTerminatesToken (name : Str) : Bool := [lit "uri", lit "path"].elem name

/-- The walk of `redirectTargetUnsafeAuthorityToken` over the authority of a target, inside of braces
if a name has been begun: the name so far, backwards. -/
def unsafeTokenFrom (sawHost : Bool) : Option Str → Str → Option Str
  | none, [] => none
  | some acc, [] => some (byte '{' :: acc.reverse)
  | some acc, b :: s =>
    if b = byte '}' then
      if redirectAuthorityTerminatesToken acc.reverse then none
      else if redirectAuthorityAllowedToken acc.reverse then unsafeTokenFrom true none s
      else some (lit "\x7b" ++ acc.reverse ++ lit "\x7d")
    else unsafeTokenFrom sawHost (some (b :: acc)) s
  | none, b :: s =>
    if endsAuthority b then none
    else if b = byte '{' then unsafeTokenFrom sawHost (some []) s
    else if b = byte '$' ∧ sawHost = false ∧
        s.head?.any fun n => byte '0' ≤ n && n ≤ byte '9' then
      some (b :: s.take 1)
    else unsafeTokenFrom sawHost none s

def redirectTargetUnsafeAuthorityToken (target : Str) : Option Str :=
  (redirectAuthorityRest target).bind (unsafeTokenFrom false none)

def validRedirectCode (code : Nat) : Bool := [301, 302, 303, 307, 308].elem code

def redirectStatus (raw : Str) : Option Nat := (atoi raw).filter validRedirectCode

def isRedirectCodeToken (raw : Str) : Bool := (redirectStatus raw).isSome

def redirectNoStore : List Word → Option Bool
  | [] => some false
  | [w] => if w.raw = lit "no_store" then some true else none
  | _ => none

def redirectTail (re : Option PathRegex) (sc : Scope) : List Word → Option (List TargetRule)
  | code :: target :: rest => do
    let status ← redirectStatus code.raw
    guard (target.raw ≠ [] ∧ redirectTargetUnsafeAuthorityToken target.raw = none)
    let noStore ← redirectNoStore rest
    some [⟨re, sc, status, target.raw, noStore⟩]
  | _ => none

def quoteMeta (s : Str) : Str :=
  s.flatMap fun b => if (lit "\\.+*?()|[]\x7b\x7d^$").elem b then [byte '\\', b] else [b]

section Compile

variable (regex : Str → Option PathRegex) (matchers : FinMap Str Matcher)

def compileRedirectScoped (words : List Word) : Option (List TargetRule) := do
  let (sc, rest) ← leadingRefScope matchers words
  guard (ensureNotResponsePhase sc)
  match rest with
  | w :: _ :: _ :: _ =>
    if isRedirectCodeToken w.raw then redirectTail none sc rest
    else do
      let re ← regex w.raw
      redirectTail (some re) sc rest.tail
  | _ => redirectTail none sc rest

/-- `compileRedirectMap`. A target of a map is not checked for unsafe tokens, and a block without
entries is not told from an empty one. -/
def compileRedirectMap (d : Stmt) : Option (List TargetRule) :=
  match d.words, d.block with
  | code :: keyword :: _, some lines => do
    let status ← redirectStatus code.raw
    guard (keyword.raw = lit "map")
    lines.mapM fun line =>
      match line.words with
      | [arrow, dest] => do
        guard (arrow.raw = lit "->" ∧ line.name ≠ [] ∧ dest.raw ≠ [])
        let re ← regex (lit "^" ++ quoteMeta line.name ++ lit "(/.*|)$")
        some ⟨some re, none, status, lit "https://\x7bhost\x7d" ++ dest.raw ++ lit "$1", false⟩
      | _ => none
  | _, _ => none

def compileRedirect (d : Stmt) : Option (List TargetRule) :=
  if d.block.isSome ∨ (d.words.tail.head?.map (·.raw)) = some (lit "map") then
    compileRedirectMap regex d
  else
    match d.words with
    | w :: rest =>
      if w.ref then compileRedirectScoped regex matchers d.words
      else do
        guard (2 ≤ rest.length)
        let re ← regex w.raw
        redirectTail (some re) none rest
    | [] => none

end Compile

/-! ## The authority, as a browser reads it -/

structure Page where
  scheme : Str
  authority : Str
  http : scheme = lit "http" ∨ scheme = lit "https"
  host : authority ≠ []
  plain : ∀ b ∈ authority, isSlash b = false

variable {p : UInt8 → Bool} (scheme rest : Str) (page : Page) (loc : Str)

def isNetworkScheme : Bool :=
  [lit "http", lit "https", lit "ws", lit "wss", lit "ftp"].elem scheme

/-- What a browser makes of a field value before it parses it: no control bytes and spaces at the
ends, and no tabs and line breaks. -/
def browserInput (s : Str) : Str :=
  (trimControls s).filter fun b => !(b == 0x09 || b == 0x0a || b == 0x0d)

def twoSlashes (s : Str) : Bool := (s.take 2).length == 2 && (s.take 2).all isSlash

def specialAuthority (s : Str) : Str := s.takeWhile fun b => !(endsAuthority b || b == byte '\\')

/-- The authority of a URL whose scheme is not one of the network, from what follows the colon. A
`file` URL has it behind two slashes of either direction, and any other URL behind two slashes. -/
def otherAuthority : Option Str :=
  if scheme = lit "file" then
    some (if twoSlashes rest then specialAuthority (rest.drop 2) else [])
  else if hasPrefix rest (lit "//") then some ((rest.drop 2).takeWhile (!endsAuthority ·))
  else none

/-- **The authority that a browser resolves a Location to**, if the URL has one. -/
def browserAuthority : Option Str :=
  let u := browserInput loc
  match schemePrefix u with
  | none =>
    -- the relative states
    some (if twoSlashes u then specialAuthority (u.dropWhile isSlash) else page.authority)
  | some (name, rest) =>
    let scheme := toLower name
    if isNetworkScheme scheme then
      -- with the scheme of the page, and without two slashes, it is relative as well
      some (if scheme = page.scheme ∧ twoSlashes rest = false then page.authority
        else specialAuthority (rest.dropWhile isSlash))
    else otherAuthority scheme rest

/-! ## The two readings -/

theorem dropWhile_eq_self {s : Str} (h : ∀ b, s.head? = some b → p b = false) :
    s.dropWhile p = s := by
  cases s with
  | nil => rfl
  | cons b s => exact dropWhile_cons_of_neg (by rw [h b rfl]; exact false_ne_true)

theorem head?_dropWhile_neg {s : Str} {b : UInt8} (h : (s.dropWhile p).head? = some b)
    : p b = false := by
  have hno := head?_dropWhile_not p s
  rw [h] at hno
  exact hno

theorem trimControls_trimControls (s : Str) : trimControls (trimControls s) = trimControls s := by
  obtain ⟨t, ht⟩ : ∃ t, t = s.dropWhile (· ≤ 0x20) := ⟨_, rfl⟩
  have htrim : trimControls s = (t.reverse.dropWhile (· ≤ 0x20)).reverse := by rw [trimControls, ht]
  -- what is trimmed at the end leaves the front as it is
  have hfront : (trimControls s).dropWhile (· ≤ 0x20) = trimControls s := by
    refine dropWhile_eq_self fun b hb => ?_
    obtain ⟨u, hu⟩ : ∃ u, t = trimControls s ++ u := by
      refine ⟨(t.reverse.takeWhile (· ≤ 0x20)).reverse, ?_⟩
      rw [htrim, ← reverse_append, takeWhile_append_dropWhile, reverse_reverse]
    have hhead : t.head? = some b := by rw [hu, head?_append, hb]; rfl
    rw [ht] at hhead
    exact head?_dropWhile_neg hhead
  have hback : (trimControls s).reverse.dropWhile (· ≤ 0x20) = (trimControls s).reverse := by
    refine dropWhile_eq_self fun b hb => ?_
    rw [htrim, reverse_reverse] at hb
    exact head?_dropWhile_neg hb
  rw [trimControls, hfront, hback, reverse_reverse]

theorem trimControls_subset (s : Str) : trimControls s ⊆ s := by
  intro b hb
  have hb := (dropWhile_sublist _).subset (mem_reverse.mp hb)
  exact (dropWhile_sublist _).subset (mem_reverse.mp hb)

theorem browserInput_normalize (s : Str) :
    browserInput (normalizeRedirectLocation s) = normalizeRedirectLocation s := by
  rw [browserInput, normalizeRedirectLocation, trimControls_trimControls]
  refine filter_eq_self.mpr fun b hb => ?_
  have hkept := (mem_filter.mp (trimControls_subset _ hb)).2
  simp only [isDroppedByte, not_eq_true', or_eq_false_iff] at hkept ⊢
  exact ⟨⟨hkept.1.1.1.1, hkept.1.1.1.2⟩, hkept.1.1.2⟩

theorem authority_foldSlashes :
    ((foldSlashes rest).dropWhile (· == byte '/')).takeWhile (!endsAuthority ·) =
      specialAuthority (rest.dropWhile isSlash) := by
  have hslash : (fun b => (if b = byte '\\' then byte '/' else b) == byte '/') = isSlash := by
    funext b
    by_cases hb : b = byte '\\'
    · subst hb
      rfl
    · simp [isSlash, hb]
  have hends : (fun b => !endsAuthority (if b = byte '\\' then byte '/' else b)) =
      fun b => !(endsAuthority b || b == byte '\\') := by
    funext b
    by_cases hb : b = byte '\\'
    · subst hb
      rfl
    · simp [hb]
  rw [foldSlashes, dropWhile_map, takeWhile_map]
  show map _ (((rest.dropWhile fun b => (if b = byte '\\' then byte '/' else b) ==
    byte '/').takeWhile fun b => !endsAuthority (if b = byte '\\' then byte '/' else b))) = _
  rw [hslash, hends]
  refine (map_congr_left fun b hb => ?_).trans (List.map_id _)
  have hb := mem_takeWhile_imp hb
  simp only [not_eq_true', or_eq_false_iff, beq_eq_false_iff_ne] at hb
  exact if_neg hb.2

theorem hasPrefix_foldSlashes (s : Str) :
    hasPrefix (foldSlashes s) (lit "//") = twoSlashes s := by
  have hone (b : UInt8) : (byte '/' == if b = byte '\\' then byte '/' else b) = isSlash b := by
    by_cases hb : b = byte '\\'
    · subst hb
      rfl
    · rw [if_neg hb, isSlash, BEq.comm, beq_eq_false_iff_ne.mpr hb, Bool.or_false]
  cases s with
  | nil => rfl
  | cons b s =>
    cases s with
    | nil => exact and_false _
    | cons c s =>
      show ((byte '/' == _) && ((byte '/' == _) && true)) = (true && (isSlash b && (isSlash c && true)))
      rw [hone, hone, Bool.true_and]

theorem locationAuthority_eq (s : Str) : locationAuthority s =
    match schemePrefix s with
    | some (_, rest) => some (specialAuthority (rest.dropWhile isSlash))
    | none => if twoSlashes s then some (specialAuthority (s.dropWhile isSlash)) else none := by
  rw [locationAuthority, redirectAuthorityRest, hasPrefix_foldSlashes]
  cases schemePrefix s with
  | some p => exact congrArg some (authority_foldSlashes p.2)
  | none =>
    dsimp only
    split
    · exact congrArg some (authority_foldSlashes s)
    · rfl

/-- The scheme of a Location is not one of the network, and its authority is another one than the
code reads. -/
def Misread : Prop :=
  ∃ name rest, schemePrefix loc = some (name, rest) ∧ isNetworkScheme (toLower name) = false ∧
    otherAuthority (toLower name) rest ≠ locationAuthority loc

theorem misread_iff {loc name rest : Str} (h : schemePrefix loc = some (name, rest)) :
    Misread loc ↔ isNetworkScheme (toLower name) = false ∧
      otherAuthority (toLower name) rest ≠ locationAuthority loc := by
  simp [Misread, h]

theorem dropWhile_of_specialAuthority {t : Str} (h : specialAuthority t ≠ []) :
    t.dropWhile isSlash = t := by
  refine dropWhile_eq_self fun b hb => ?_
  obtain ⟨u, rfl⟩ := head?_eq_some_iff.mp hb
  by_contra hslash
  refine h (takeWhile_cons_of_neg ?_)
  rw [not_eq_false, isSlash, or_eq_true] at hslash
  obtain hslash | hslash := hslash
  · simp [endsAuthority, hslash]
  · simp [hslash]

theorem specialAuthority_of_other {scheme rest : Str} (page : Page)
    (h : otherAuthority scheme rest = some page.authority) :
    specialAuthority (rest.dropWhile isSlash) = page.authority := by
  rw [otherAuthority] at h
  split at h
  case isTrue =>
    have h := some.inj h
    split at h
    case isTrue htwo =>
      have hne : specialAuthority (rest.drop 2) ≠ [] := by
        rw [h]
        exact page.host
      have hdrop : rest.dropWhile isSlash = (rest.drop 2).dropWhile isSlash := by
        rw [twoSlashes, and_eq_true] at htwo
        conv_lhs => rw [← take_append_drop 2 rest]
        exact dropWhile_append_of_pos (List.all_eq_true.mp htwo.2)
      rw [hdrop, dropWhile_of_specialAuthority hne, h]
    case isFalse => exact absurd h.symm page.host
  case isFalse =>
    obtain ⟨hslashes, h⟩ := ite_none_right_eq_some.mp h
    obtain ⟨t, rfl⟩ := isPrefixOf_iff_prefix.mp hslashes
    have h : t.takeWhile (!endsAuthority ·) = page.authority := some.inj h
    -- the host has no backslash in it, so that none ends the authority earlier
    have hspecial : specialAuthority t = page.authority := by
      have hand : (fun b => !(endsAuthority b || b == byte '\\')) =
          fun b => decide ((b != byte '\\') = true ∧ (!endsAuthority b) = true) := by
        funext b
        rw [Bool.not_or, Bool.decide_and, Bool.decide_eq_true, Bool.decide_eq_true, Bool.and_comm]
        rfl
      rw [specialAuthority, hand, ← takeWhile_takeWhile, h]
      refine takeWhile_eq_self_iff.mpr fun b hb => ?_
      have hslash := page.plain b hb
      rw [isSlash, or_eq_false_iff] at hslash
      rw [bne, hslash.2]
      rfl
    have hne : specialAuthority t ≠ [] := by
      rw [hspecial]
      exact page.host
    have hdrop : (lit "//" ++ t).dropWhile isSlash = t.dropWhile isSlash :=
      dropWhile_append_of_pos (by decide)
    rw [hdrop, dropWhile_of_specialAuthority hne, hspecial]

/-- **A Location on the way**: of the page's own host, or of the authority it is to have. -/
def Confined (auth : Option Str) (loc : Str) : Prop :=
  browserAuthority page loc = some page.authority ∨ browserAuthority page loc = auth

theorem confined_iff {page : Page} {auth : Option Str} {loc : Str} (hinput : browserInput loc = loc)
    (hauth : locationAuthority loc = none ∨ locationAuthority loc = auth) :
    Confined page auth loc ↔ ¬ Misread loc := by
  rw [locationAuthority_eq] at hauth
  cases hscheme : schemePrefix loc with
  | none =>
    have hnot : ¬ Misread loc := by
      rintro ⟨name, rest, hsome, -⟩
      rw [hscheme] at hsome
      cases hsome
    refine iff_of_true ?_ hnot
    simp only [hscheme] at hauth
    simp only [Confined, browserAuthority, hinput, hscheme]
    split
    case isTrue htwo =>
      rw [if_pos htwo] at hauth
      exact .inr (hauth.resolve_left (some_ne_none _))
    case isFalse => exact .inl rfl
  | some p =>
    obtain ⟨name, rest⟩ := p
    simp only [hscheme] at hauth
    have hauth := hauth.resolve_left (some_ne_none _)
    have hcode : locationAuthority loc = auth := by
      rw [locationAuthority_eq, hscheme]
      exact hauth
    rw [misread_iff hscheme, hcode]
    cases hnet : isNetworkScheme (toLower name) with
    | true =>
      refine iff_of_true ?_ fun hread => Bool.true_eq_false_eq_False hread.1
      simp only [Confined, browserAuthority, hinput, hscheme, hnet, if_true]
      split
      · exact .inl rfl
      · exact .inr hauth
    | false =>
      have hread : browserAuthority page loc = otherAuthority (toLower name) rest := by
        simp only [browserAuthority, hinput, hscheme, hnet]
        rfl
      rw [Confined, hread]
      constructor
      · rintro (hown | href) ⟨-, hne⟩
        · refine hne (hown.trans ?_)
          rw [← hauth, specialAuthority_of_other page hown]
        · exact hne href
      · intro hno
        by_contra hconf
        exact hno ⟨rfl, fun heq => hconf (.inr heq)⟩

/-! ## Where a redirect leads -/

namespace TargetRule

variable {r : TargetRule} {addresses : List Str} {classifiers : FinMap Str Classifier} {tls : Bool}

theorem eval_eq_some {c : MatchContext} {rdr : Redirect}
    (h : r.eval addresses classifiers tls c = some rdr) :
    rdr.location = r.location addresses classifiers tls c ∧
    (locationAuthority rdr.location = none ∨
      locationAuthority rdr.location = r.reference tls (redirectHost addresses c.req)) := by
  obtain ⟨-, h⟩ := ite_none_left_eq_some.mp h
  obtain ⟨-, h⟩ := ite_none_left_eq_some.mp h
  dsimp only at h
  split at h
  case h_1 hnone =>
    obtain rfl := some.inj h
    exact ⟨rfl, .inl hnone⟩
  case h_2 got hgot =>
    obtain ⟨href, h⟩ := ite_none_right_eq_some.mp h
    obtain rfl := some.inj h
    exact ⟨rfl, .inr (hgot.trans href.symm)⟩

theorem confined_iff_of_eval {c : MatchContext} {rdr : Redirect}
    (h : r.eval addresses classifiers tls c = some rdr) (page : Page) :
    Confined page (r.reference tls (redirectHost addresses c.req)) rdr.location ↔
      ¬ Misread (r.location addresses classifiers tls c) := by
  obtain ⟨hloc, hauth⟩ := eval_eq_some h
  rw [← hloc]
  refine confined_iff ?_ hauth
  rw [hloc]
  exact browserInput_normalize _

/-- **When a redirect leads where the rule says.** Two requests for which a site has one host, on
connections of one kind, are redirected by a rule to the authority that the rule has for that host,
or to the host they are on, exactly when neither Location is misread; and then they are redirected
to one authority, or one of them to the host it is on. -/
theorem redirect_confined_iff (r : TargetRule) (addresses : List Str)
    (classifiers : FinMap Str Classifier) (tls : Bool) (c₁ c₂ : MatchContext) (rdr₁ rdr₂ : Redirect)
    (hhost : redirectHost addresses c₁.req = redirectHost addresses c₂.req)
    (h₁ : r.eval addresses classifiers tls c₁ = some rdr₁)
    (h₂ : r.eval addresses classifiers tls c₂ = some rdr₂) (page₁ page₂ : Page) :
    (Confined page₁ (r.reference tls (redirectHost addresses c₁.req)) rdr₁.location ∧
      Confined page₂ (r.reference tls (redirectHost addresses c₁.req)) rdr₂.location ↔
        ¬ Misread (r.location addresses classifiers tls c₁) ∧
        ¬ Misread (r.location addresses classifiers tls c₂)) ∧
    (¬ Misread (r.location addresses classifiers tls c₁) →
      ¬ Misread (r.location addresses classifiers tls c₂) →
      browserAuthority page₁ rdr₁.location = browserAuthority page₂ rdr₂.location ∨
      browserAuthority page₁ rdr₁.location = some page₁.authority ∨
      browserAuthority page₂ rdr₂.location = some page₂.authority) := by
  have hiff₁ := confined_iff_of_eval h₁ page₁
  have hiff₂ := confined_iff_of_eval h₂ page₂
  rw [← hhost] at hiff₂
  refine ⟨and_congr hiff₁ hiff₂, fun hread₁ hread₂ => ?_⟩
  obtain hown | href₁ := hiff₁.mpr hread₁
  · exact .inr (.inl hown)
  · obtain hown | href₂ := hiff₂.mpr hread₂
    · exact .inr (.inr hown)
    · exact .inl (href₁.trans href₂.symm)

end TargetRule

def appRegex (re : Str) : Option PathRegex :=
  if re = lit "^/app(.*)$" then
    some fun path => if hasPrefix path (lit "/app") then some [path, path.drop 4] else none
  else none

def appRedirect (target : String) : Stmt :=
  ⟨lit "redirect", [⟨lit "^/app(.*)$", false⟩, ⟨lit "302", false⟩, ⟨lit target, false⟩], none⟩

def brandGet (path : String) : MatchContext :=
  ⟨{ Request.get (lit path) ∅ with host := lit "brand.example" }, [], none⟩

theorem brandScheme_http : lit "https" = lit "http" ∨ lit "https" = lit "https" := .inr rfl

theorem brandHost_ne_nil : lit "brand.example" ≠ [] := cons_ne_nil _ _

theorem brandHost_plain : ∀ b ∈ lit "brand.example", isSlash b = false := by
  decide

def brandPage : Page where
  scheme := lit "https"
  authority := lit "brand.example"
  http := brandScheme_http
  host := brandHost_ne_nil
  plain := brandHost_plain

def appRule (target : String) : TargetRule :=
  ⟨some fun path => if hasPrefix path (lit "/app") then some [path, path.drop 4] else none, none, 302,
    lit target, false⟩

theorem redirect_confined_query : ∃ rdr₁ rdr₂,
    (appRule "https://app.\x7bhost\x7d/$1").eval [lit "brand.example"] ∅ true (brandGet "/app/a") =
      some rdr₁ ∧
    (appRule "https://app.\x7bhost\x7d/$1").eval [lit "brand.example"] ∅ true
      (brandGet "/app//evil.example") = some rdr₂ ∧
    (browserAuthority brandPage rdr₁.location = browserAuthority brandPage rdr₂.location ∨
      browserAuthority brandPage rdr₁.location = some brandPage.authority ∨
      browserAuthority brandPage rdr₂.location = some brandPage.authority) := by
  have h₁ : (appRule "https://app.\x7bhost\x7d/$1").eval [lit "brand.example"] ∅ true
      (brandGet "/app/a") = some ⟨302, lit "https://app.brand.example//a", false⟩ := by decide
  have h₂ : (appRule "https://app.\x7bhost\x7d/$1").eval [lit "brand.example"] ∅ true
      (brandGet "/app//evil.example") =
        some ⟨302, lit "https://app.brand.example///evil.example", false⟩ := by decide
  have hread (c : MatchContext) (loc : String)
      (h : (appRule "https://app.\x7bhost\x7d/$1").location [lit "brand.example"] ∅ true c = lit loc)
      (hnet : (schemePrefix (lit loc)).all fun p => isNetworkScheme (toLower p.1)) :
      ¬ Misread ((appRule "https://app.\x7bhost\x7d/$1").location [lit "brand.example"] ∅ true c) := by
    rintro ⟨name, rest, hscheme, hno, -⟩
    rw [h] at hscheme
    rw [hscheme] at hnet
    exact absurd hnet (by simp [hno])
  refine ⟨_, _, h₁, h₂, ?_⟩
  have hconfined := TargetRule.redirect_confined_iff (appRule "https://app.\x7bhost\x7d/$1")
    [lit "brand.example"] ∅ true (brandGet "/app/a") (brandGet "/app//evil.example") _ _ rfl h₁ h₂
    brandPage brandPage
  exact hconfined.2 (hread _ "https://app.brand.example//a" (by decide) (by decide))
    (hread _ "https://app.brand.example///evil.example" (by decide) (by decide))

/-- **A scheme that is not the network's lets a request choose the host**: `/app%5C@evil.example/` is
redirected to `evil.example`. -/
theorem redirect_escapes : ∃ r rdr₁ rdr₂,
    (compileRedirect appRegex ∅ (appRedirect "myapp://app.\x7bhost\x7d$1")) = some [r] ∧
    r.eval [lit "brand.example"] ∅ true (brandGet "/app/a") = some rdr₁ ∧
    r.eval [lit "brand.example"] ∅ true (brandGet "/app\\@evil.example/") = some rdr₂ ∧
    redirectHost [lit "brand.example"] (brandGet "/app/a").req =
      redirectHost [lit "brand.example"] (brandGet "/app\\@evil.example/").req ∧
    browserAuthority brandPage rdr₁.location = some (lit "app.brand.example") ∧
    browserAuthority brandPage rdr₂.location = some (lit "app.brand.example\\@evil.example") ∧
    brandPage.authority = lit "brand.example" := by
  refine ⟨appRule "myapp://app.\x7bhost\x7d$1", ⟨302, lit "myapp://app.brand.example/a", false⟩,
    ⟨302, lit "myapp://app.brand.example\\@evil.example/", false⟩, rfl, ?_, ?_, rfl, ?_, ?_, rfl⟩
  · decide
  · decide
  · decide
  · decide

end Cadish
