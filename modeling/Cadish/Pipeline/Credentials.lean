import Cadish.Pipeline.Cookies
import Cadish.Pipeline.Engine

/-!
# Cookies and credentials on the way to the origin

`filterRequestCookies` drops the cookies a site does not list, `stripDerivedCookies` those an axis
of the key was derived from, and `bypassForCredentials` keeps a request off the cache unless its key
captures every credential left. **A request that loses a cookie is forwarded with its other cookies
rewritten, one that loses none with its cookies as they came**
(`lenientCookies_stripDerivedCookies`).
-/

namespace Cadish

open Header (canonicalKey values del)

/-! ## The recipe's derived cookies -/

def KeyToken.derivesFrom : KeyToken → List Str
  | .classify cl => cl.derivesFrom
  | _ => []

def KeyToken.derivesForward : KeyToken → List Str
  | .classify cl => cl.derivesForward
  | _ => []

namespace Pipeline

variable (p : Pipeline)

/-- `computeDerivedSurviveCookies`: the cookies some recipe derives an axis from. -/
def derivedSurviveCookies : List Str :=
  p.keyRules.flatMap fun r => r.toks.flatMap KeyToken.derivesFrom

variable (toks : List KeyToken) (h : Header) (req : Request) (v : Str)

def selectedDerivedStripCookies : List Str :=
  if p.derivedSurviveCookies = [] then []
  else toks.flatMap fun t => t.derivesFrom.filter fun c => !t.derivesForward.elem c

def selectedDerivedForwardCookies : List Str :=
  if p.derivedSurviveCookies = [] then [] else toks.flatMap KeyToken.derivesForward

/-! ## Filtering and stripping -/

/-- `FilterRequestCookies`: the field with the allowed cookies only; `none` when the site lists
none. -/
def filterRequestCookies (raw : Str) : Option Str :=
  p.cookieAllow.map fun allow =>
    writeCookies ((parseLenientCookies raw).filter fun c =>
      allow c.name || p.derivedSurviveCookies.elem c.name)

def setCookieField : Header :=
  if v = [] then h.del (lit "Cookie") else h.set (lit "Cookie") v

def filtered : Request :=
  match p.filterRequestCookies (req.header.get (lit "Cookie")) with
  | some v => { req with header := setCookieField req.header v }
  | none => req

/-- Whether the strip drops a cookie. An axis input that was let through the filter for a
recipe that is not selected is dropped as the filter would have. -/
def removesCookie (name : Str) : Bool :=
  p.derivedSurviveCookies.elem name && !(p.selectedDerivedForwardCookies toks).elem name &&
    ((p.selectedDerivedStripCookies toks).elem name ||
      p.cookieAllow.any fun allow => !allow name)

def stripDerivedCookies (selKey : Option (List KeyToken)) (req : Request) : Request :=
  let removes := p.removesCookie (p.recipeTokensForReq req selKey)
  let cs := lenientCookies req.header
  if cs.any fun c => removes c.name then
    { req with header := setCookieField req.header (writeCookies (cs.filter fun c => !removes c.name)) }
  else req

/-! ## Coverage -/

def tokenCoversAuth : KeyToken → Bool
  | .header name => Str.equalFold name (lit "authorization")
  | _ => false

def tokenIsCookieHeader : KeyToken → Bool
  | .header name => Str.equalFold name (lit "cookie")
  | _ => false

def tokenIsCookie (name : Str) : KeyToken → Bool
  | .cookie n => n == name
  | _ => false

def tokenCoversCookie (t : KeyToken) : Bool :=
  tokenIsCookieHeader t || match t with
    | .cookie _ => true
    | _ => false

def keyCanCoverCred : Bool :=
  p.keyRules.any fun r => r.toks.any fun t =>
    tokenCoversCookie t || tokenCoversAuth t || !t.derivesForward.isEmpty

def keyCoversAuthorization : Bool := toks.any tokenCoversAuth

/-- `keyCoversAllCookies`: the whole header is in the key, or each cookie is. A cookie in the
key is sent once; one that is only forwarded may repeat the same value. -/
def keyCoversAllCookies (cookies : List CookieKV) (forward : List Str) :
    Bool :=
  toks.any tokenIsCookieHeader ||
    (!cookies.isEmpty && cookies.all fun c =>
      let keyed := toks.any (tokenIsCookie c.name)
      let same := cookies.filter fun c' => c'.name == c.name
      (keyed || forward.elem c.name) &&
        (same.length ≤ 1 || (!keyed && same.all fun c' => c'.value == c.value)))

def bypassForCredentials (selKey : Option (List KeyToken)) : Bool :=
  let cookies := lenientCookies req.header
  let authVals := req.header.values (lit "Authorization")
  let hasCookie := !cookies.isEmpty
  let hasAuth := authVals.any (· ≠ [])
  let toks := p.recipeTokensForReq req selKey
  if !hasCookie && !hasAuth then false
  else if !p.keyCanCoverCred then true
  else if hasAuth && (!keyCoversAuthorization toks || 1 < authVals.length) then true
  else hasCookie && !keyCoversAllCookies toks cookies (p.selectedDerivedForwardCookies toks)

/-! ## What the phases leave on the request -/

theorem setCookieField_lookup {key : Str} (hne : key ≠ lit "Cookie") :
    (setCookieField h v).lookup key = h.lookup key := by
  rw [setCookieField, del, Header.set, Header.canonicalKey_cookie]
  split
  · exact AList.lookup_erase_ne hne
  · exact AList.lookup_insert_ne hne

theorem values_setCookieField_cookie {name : Str}
    (hname : canonicalKey name = lit "Cookie") :
    (setCookieField h v).values name = if v = [] then [] else [v] := by
  rw [values, hname, setCookieField]
  split
  · rw [del, Header.canonicalKey_cookie, AList.lookup_erase]
    rfl
  · rfl

theorem values_setCookieField {name : Str}
    (hname : canonicalKey name ≠ lit "Cookie") :
    (setCookieField h v).values name = h.values name := by
  rw [values, setCookieField_lookup h v hname, values]

theorem cookieLine_setCookieField : (setCookieField h v).cookieLine = v := by
  rw [Header.cookieLine, values_setCookieField_cookie h v Header.canonicalKey_cookie]
  split
  case isTrue hv => exact hv.symm
  case isFalse => simp [Str.join]

theorem lenientCookies_setCookieField :
    lenientCookies (setCookieField h v) = parseLenientCookies v := by
  rw [Header.lenientCookies_eq, cookieLine_setCookieField]

def kept : List CookieKV :=
  (lenientCookies req.header).filter fun c => !p.removesCookie toks c.name

def Strips : Prop :=
  ∃ c ∈ lenientCookies req.header, p.removesCookie toks c.name = true

instance (toks : List KeyToken) (req : Request) : Decidable (p.Strips toks req) :=
  inferInstanceAs (Decidable (∃ c ∈ lenientCookies req.header, _))

variable {p} {toks : List KeyToken} {req : Request}

theorem kept_of_not_strips (h : ¬p.Strips toks req) : p.kept toks req = lenientCookies req.header := by
  refine List.filter_eq_self.mpr fun c hc => ?_
  by_contra hr
  exact h ⟨c, hc, by simpa using hr⟩

theorem lenientCookies_stripDerivedCookies (selKey : List KeyToken) (req : Request) :
    lenientCookies (p.stripDerivedCookies (some selKey) req).header =
      if p.Strips (recipeTokens selKey) req
      then (p.kept (recipeTokens selKey) req).map CookieKV.reread
      else p.kept (recipeTokens selKey) req := by
  have hiff : ((lenientCookies req.header).any fun c =>
      p.removesCookie (recipeTokens selKey) c.name) = true ↔ p.Strips (recipeTokens selKey) req :=
    List.any_eq_true
  have htoks : p.recipeTokensForReq req (some selKey) = recipeTokens selKey := rfl
  simp only [stripDerivedCookies, htoks, hiff]
  split
  case isTrue =>
    have hparsed : ∀ c ∈ p.kept (recipeTokens selKey) req, c.Parsed :=
      fun c hc => lenientCookies_parsed (List.mem_filter.mp hc).1
    rw [lenientCookies_setCookieField]
    exact parseLenientCookies_writeCookies hparsed
  case isFalse hn => exact (kept_of_not_strips hn).symm

theorem values_stripDerivedCookies (selKey : Option (List KeyToken)) {name : Str}
    (hname : canonicalKey name ≠ lit "Cookie") :
    (p.stripDerivedCookies selKey req).header.values name = req.header.values name := by
  simp only [stripDerivedCookies]
  split
  · exact values_setCookieField _ _ hname
  · rfl

variable {selKey : Option (List KeyToken)} {name : Str}

theorem values_filtered (hname : canonicalKey name ≠ lit "Cookie") :
    (p.filtered req).header.values name = req.header.values name := by
  rw [filtered]
  split
  · exact values_setCookieField _ _ hname
  · rfl

/-! ## What a covered request has -/

def CookiesKeyed (toks : List KeyToken) (cs : List CookieKV) : Prop :=
  ∀ c ∈ cs, KeyToken.cookie c.name ∈ toks ∧ (cs.filter fun c' => c'.name == c.name).length ≤ 1

theorem any_tokenIsCookie : toks.any (tokenIsCookie name) = true ↔ KeyToken.cookie name ∈ toks := by
  rw [List.any_eq_true]
  constructor
  · rintro ⟨t, ht, hn⟩
    cases t with
    | cookie n => obtain rfl : n = name := by simpa [tokenIsCookie] using hn
                  exact ht
    | _ => cases hn
  · intro h
    exact ⟨_, h, by simp [tokenIsCookie]⟩

theorem authorization_of_not_bypass (h : p.bypassForCredentials req selKey = false)
    (ha : (req.header.values (lit "Authorization")).any (· ≠ []) = true) :
    keyCoversAuthorization (p.recipeTokensForReq req selKey) = true := by
  simp only [bypassForCredentials, ha] at h
  by_contra hno
  simp [hno] at h

theorem cookies_of_not_bypass (h : p.bypassForCredentials req selKey = false)
    (hfwd : ∀ c ∈ lenientCookies req.header, c.name ∉ p.selectedDerivedForwardCookies (p.recipeTokensForReq req selKey)) :
    (p.recipeTokensForReq req selKey).any tokenIsCookieHeader = true ∨
      CookiesKeyed (p.recipeTokensForReq req selKey) (lenientCookies req.header) := by
  by_cases hempty : lenientCookies req.header = []
  · exact .inr fun c hc => by rw [hempty] at hc; cases hc
  have hcov : keyCoversAllCookies (p.recipeTokensForReq req selKey) (lenientCookies req.header)
      (p.selectedDerivedForwardCookies (p.recipeTokensForReq req selKey)) = true := by
    by_contra hno
    simp [bypassForCredentials, hempty, hno] at h
  rw [keyCoversAllCookies, Bool.or_eq_true] at hcov
  rcases hcov with hall | hcov
  · exact .inl hall
  refine .inr fun c hc => ?_
  rw [Bool.and_eq_true, List.all_eq_true] at hcov
  have := hcov.2 c hc
  have hno : (p.selectedDerivedForwardCookies (p.recipeTokensForReq req selKey)).elem c.name =
      false := by simpa using hfwd c hc
  -- not forwarded, so it is keyed, and a keyed cookie is sent once
  simp only [hno, Bool.or_false, Bool.and_eq_true] at this
  obtain ⟨hkeyed, hone⟩ := this
  refine ⟨any_tokenIsCookie.mp hkeyed, ?_⟩
  simpa [hkeyed] using hone

/-! ## The cookies after both filters -/

section RoundTrip

variable (p) (toks) (req)

/-- The cookies that `cookie_allow` lets through, or that an axis needs. -/
def passed (raw : Str) : List CookieKV :=
  (parseLenientCookies raw).filter fun c =>
    p.cookieAllow.all (· c.name) || p.derivedSurviveCookies.elem c.name

/-- What `FilterRequestCookies` returns; the field as it is when the site lists no cookies. -/
def cookieField (raw : Str) : Str := (p.filterRequestCookies raw).getD raw

/-- The names a strip is for: those that the recipe consumes, and those that were kept for another
recipe and that `cookie_allow` would have dropped. -/
def dropsCookie (name : Str) : Bool :=
  !(p.selectedDerivedForwardCookies toks).elem name &&
    ((p.selectedDerivedStripCookies toks).elem name ||
      p.derivedSurviveCookies.elem name && p.cookieAllow.any fun allow => !allow name)

def selected : List KeyToken := p.selectKeyTokens (p.context (p.filtered req) none)

structure RoundTrip : Prop where
  read : parseLenientCookies (p.cookieField (req.header.get (lit "Cookie"))) =
    p.passed (req.header.get (lit "Cookie"))
  again : p.cookieField (p.cookieField (req.header.get (lit "Cookie"))) =
    p.cookieField (req.header.get (lit "Cookie"))
  stripped : lenientCookies (p.stripDerivedCookies (some (p.selected req)) (p.filtered req)).header =
    (lenientCookies (p.filtered req).header).filter fun c =>
      !p.dropsCookie (recipeTokens (p.selected req)) c.name

variable {p toks req}

theorem derivesFrom_subset {c : MatchContext} {t : KeyToken}
    (ht : t ∈ recipeTokens (p.selectKeyTokens c)) : t.derivesFrom ⊆ p.derivedSurviveCookies := by
  rw [recipeTokens] at ht
  split at ht
  · have hdefault : ∀ t ∈ defaultKeyTokens, t.derivesFrom = [] := by
      simp [defaultKeyTokens, KeyToken.derivesFrom]
    simp [hdefault t ht]
  rw [selectKeyTokens] at ht
  split at ht
  case h_1 r hr =>
    intro name hname
    exact List.mem_flatMap.mpr
      ⟨r, List.mem_of_find?_eq_some hr, List.mem_flatMap.mpr ⟨t, ht, hname⟩⟩
  case h_2 => cases ht

/-- A strip drops the names it is for. -/
theorem removesCookie_eq (c : MatchContext) (name : Str) :
    p.removesCookie (recipeTokens (p.selectKeyTokens c)) name =
      p.dropsCookie (recipeTokens (p.selectKeyTokens c)) name := by
  have hsurvives : (p.selectedDerivedStripCookies (recipeTokens (p.selectKeyTokens c))).elem name →
      p.derivedSurviveCookies.elem name := by
    simp only [selectedDerivedStripCookies, List.elem_eq_mem, decide_eq_true_eq]
    split
    · intro h
      cases h
    · intro h
      obtain ⟨t, ht, hname⟩ := List.mem_flatMap.mp h
      exact derivesFrom_subset ht (List.mem_filter.mp hname).1
  rw [removesCookie, dropsCookie]
  cases hstrip : (p.selectedDerivedStripCookies (recipeTokens (p.selectKeyTokens c))).elem name with
  | true => rw [hsurvives hstrip, Bool.true_and, Bool.true_or, Bool.true_or]
  | false => rw [Bool.false_or, Bool.false_or, Bool.and_assoc, Bool.and_left_comm]

theorem map_reread_eq_self {cs : List CookieKV} :
    cs.map CookieKV.reread = cs ↔ ∀ c ∈ cs, c.reread = c := by
  simpa using List.map_inj_left (l := cs) (f := CookieKV.reread) (g := id)

theorem parse_cookieField (raw : Str) : parseLenientCookies (p.cookieField raw) =
    if p.cookieAllow.isSome then (p.passed raw).map CookieKV.reread else p.passed raw := by
  cases hallow : p.cookieAllow with
  | none => simp [cookieField, filterRequestCookies, passed, hallow]
  | some allow =>
    simp only [cookieField, filterRequestCookies, passed, hallow]
    exact parseLenientCookies_writeCookies fun c hc =>
      parseLenientCookies_parsed (List.mem_filter.mp hc).1

theorem cookieField_cookieField {raw : Str}
    (h : p.cookieAllow.isSome → ∀ c ∈ p.passed raw, c.reread = c) :
    p.cookieField (p.cookieField raw) = p.cookieField raw := by
  have hread := p.parse_cookieField raw
  cases hallow : p.cookieAllow with
  | none => simp [cookieField, filterRequestCookies, hallow]
  | some allow =>
    have hwrite (raw : Str) : p.cookieField raw = writeCookies (p.passed raw) := by
      simp [cookieField, filterRequestCookies, passed, hallow]
    have hsome : p.cookieAllow.isSome := by rw [hallow]; rfl
    rw [if_pos hsome, map_reread_eq_self.mpr (h hsome)] at hread
    have hpassed : p.passed (p.cookieField raw) = p.passed raw := by
      rw [passed, hread]
      exact List.filter_eq_self.mpr fun c hc => (List.mem_filter.mp hc).2
    rw [hwrite (p.cookieField raw), hpassed, hwrite]

/-- **When both filters leave the cookies that stay as they were read**: a value that is written is
read back the same. The filter writes what it lets through, and the strip what it keeps if it drops
any. -/
theorem roundTrip_iff (p : Pipeline) (req : Request) : p.RoundTrip req ↔
    (p.cookieAllow.isSome → ∀ c ∈ p.passed (req.header.get (lit "Cookie")), c.reread = c) ∧
    (p.Strips (recipeTokens (p.selected req)) (p.filtered req) →
      ∀ c ∈ p.kept (recipeTokens (p.selected req)) (p.filtered req), c.reread = c) := by
  have hstrip := lenientCookies_stripDerivedCookies (p := p) (p.selected req) (p.filtered req)
  have hkept : p.kept (recipeTokens (p.selected req)) (p.filtered req) =
      (lenientCookies (p.filtered req).header).filter fun c =>
        !p.dropsCookie (recipeTokens (p.selected req)) c.name := by
    simp only [kept, selected, removesCookie_eq]
  constructor
  · rintro ⟨hread, -, hstripped⟩
    rw [parse_cookieField] at hread
    rw [hstripped, ← hkept] at hstrip
    refine ⟨fun hallow => ?_, fun hs => ?_⟩
    · rw [if_pos hallow] at hread
      exact map_reread_eq_self.mp hread
    · rw [if_pos hs] at hstrip
      exact map_reread_eq_self.mp hstrip.symm
  · rintro ⟨hpassed, hs⟩
    refine ⟨?_, cookieField_cookieField hpassed, ?_⟩
    · rw [parse_cookieField]
      split
      case isTrue hallow => exact map_reread_eq_self.mpr (hpassed hallow)
      case isFalse => rfl
    · rw [hstrip, ← hkept]
      split
      case isTrue h => exact map_reread_eq_self.mpr (hs h)
      case isFalse => rfl

/-- **A value loses its quotes, then its spaces.** -/
theorem not_roundTrip : ¬∀ (p : Pipeline) (req : Request), p.RoundTrip req := by
  intro h
  have hread := (h { bare with cookieAllow := some fun _ => true }
    (.get (lit "/") (.set ∅ (lit "Cookie") (lit "a=\" x\"")))).read
  exact absurd hread (by decide)

end RoundTrip

end Pipeline

end Cadish
