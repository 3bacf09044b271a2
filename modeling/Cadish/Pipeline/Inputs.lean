import Mathlib.Data.List.Find
import Cadish.Pipeline.Credentials

/-!
# What a key is made of

`inputs` lists the part of the request that a matcher, a token or a recipe reads, and evaluation
reads nothing else (`buildKey_agrees`, `evalRequest_agrees`). A cookie matcher by prefix reads every
cookie under it; a host matcher reads the host as it came, a token the normalised one.
-/

namespace Cadish

open List Header KeyToken

inductive Input where
  | method
  | host
  | path
  | query
  | field (name : Str)
  | cookie (name : Str)
  | cookies (namePrefix : Str)
  | clientIP
  | realClientIP
  | device
  | geo (gran : GeoGranularity)
  | pools
  | upstream
  | response
deriving DecidableEq

def Header.cookieOf (h : Header) (name : Str) : Option CookieKV :=
  (lenientCookies h).find? (·.name = name)

namespace Input

def Agrees (c c' : MatchContext) : Input → Prop
  | .method => c.req.effMethod = c'.req.effMethod
  | .host => c.req.host = c'.req.host
  | .path => c.req.path = c'.req.path
  | .query => c.req.query = c'.req.query
  | .field name =>
    c.req.header.lookup (canonicalKey name) = c'.req.header.lookup (canonicalKey name)
  | .cookie name => c.req.header.cookieOf name = c'.req.header.cookieOf name
  | .cookies pre => ∀ name, Str.hasPrefix name pre = true →
    c.req.header.cookieOf name = c'.req.header.cookieOf name
  | .clientIP => c.req.clientIP = c'.req.clientIP
  | .realClientIP => c.req.realClientIP = c'.req.realClientIP
  | .device => c.req.device = c'.req.device
  | .geo .country => c.req.geo = c'.req.geo
  | .geo .continent => c.req.geoContinent = c'.req.geoContinent
  | .geo .region => c.req.geoRegion = c'.req.geoRegion
  | .pools => c.req.poolHealthy = c'.req.poolHealthy
  | .upstream => c.upstream = c'.upstream
  | .response => c.respHeader = c'.respHeader

end Input

/-! ## The inputs of a matcher -/

mutual

def Matcher.inputs : Matcher → List Input
  | .path _ | .pathRegex _ => [.path]
  | .host _ | .hostRegex _ => [.host]
  | .header name _ | .headerPresent name | .headerRegex name _ | .headerJSON name _ => [.field name]
  | .method _ => [.method]
  | .upstream _ => [.upstream]
  | .contentType _ | .respHeader _ _ | .setCookie _ => [.response]
  | .cookie name _ | .cookieJSON name _ => [.cookie name]
  | .cookieGlob namePrefix => [.cookies namePrefix]
  | .classify rows _ _ _ => rowInputs rows
  | .geo gran _ => [.geo gran]
  | .queryPresent _ _ | .query _ _ => [.query]
  | .ip _ => [.realClientIP]
  | .all terms => termInputs terms
  | .upstreamHealthy _ => [.pools]

def termInputs : List (Matcher × Bool) → List Input
  | [] => []
  | (m, _) :: terms => m.inputs ++ termInputs terms

def conjInputs : List Matcher → List Input
  | [] => []
  | m :: conj => m.inputs ++ conjInputs conj

def rowInputs : List (List Matcher × Str) → List Input
  | [] => []
  | (conj, _) :: rows => conjInputs conj ++ rowInputs rows

end

section Agree

variable {c c' : MatchContext}

theorem Input.Agrees.cookieNames {name : Str} (h : (Input.cookie name).Agrees c c') :
    c.req.cookieNames.elem name = c'.req.cookieNames.elem name := by
  have hsome (h : Header) : ((lenientCookies h).map (·.name)).elem name =
      (h.cookieOf name).isSome := by
    rw [Bool.eq_iff_iff, cookieOf]
    simp
  rw [Request.cookieNames, Request.cookieNames, hsome, hsome, show _ = _ from h]

theorem Input.Agrees.cookieValue {name : Str} (h : (Input.cookie name).Agrees c c') :
    c.req.cookie name = c'.req.cookie name := by
  have hvalue (req : Request) :
      req.cookie name = ((req.header.cookieOf name).map (·.value)).getD [] := by
    rw [Request.cookie, cookieOf]
    cases (lenientCookies req.header).find? (·.name = name) <;> rfl
  rw [hvalue, hvalue, show _ = _ from h]

theorem Input.Agrees.prefixed {pre : Str} (h : (Input.cookies pre).Agrees c c') :
    (c.req.cookieNames.any fun n => n.hasPrefix pre) =
      c'.req.cookieNames.any fun n => n.hasPrefix pre := by
  have hsome (h : Header) : (((lenientCookies h).map (·.name)).any fun n => n.hasPrefix pre) = true ↔
      ∃ name, Str.hasPrefix name pre = true ∧ (h.cookieOf name).isSome = true := by
    simp only [List.any_map, List.any_eq_true, cookieOf, find?_isSome]
    constructor
    · rintro ⟨ck, hmem, hpre⟩
      exact ⟨ck.name, hpre, ck, hmem, decide_eq_true rfl⟩
    · rintro ⟨name, hpre, ck, hmem, hname⟩
      obtain rfl := of_decide_eq_true hname
      exact ⟨ck, hmem, hpre⟩
  rw [Bool.eq_iff_iff, Request.cookieNames, Request.cookieNames, hsome, hsome]
  constructor
  · rintro ⟨name, hpre, hc⟩
    exact ⟨name, hpre, h name hpre ▸ hc⟩
  · rintro ⟨name, hpre, hc⟩
    exact ⟨name, hpre, (h name hpre).symm ▸ hc⟩

theorem Input.Agrees.values {name : Str} (h : (Input.field name).Agrees c c') :
    c.req.header.values name = c'.req.header.values name := congrArg (Option.getD · []) h

theorem Input.Agrees.present {name : Str} (h : (Input.field name).Agrees c c') :
    c.req.header.present name = c'.req.header.present name := congrArg Option.isSome h

mutual

theorem Matcher.matches_agrees : ∀ m : Matcher, (∀ i ∈ m.inputs, i.Agrees c c') →
    m.matches c = m.matches c'
  | .path _, h | .pathRegex _, h => by
    have hpath : c.req.path = c'.req.path := h .path (by simp [Matcher.inputs])
    rw [Matcher.matches, Matcher.matches, hpath]
  | .host _, h | .hostRegex _, h => by
    have hhost : c.req.host = c'.req.host := h .host (by simp [Matcher.inputs])
    simp only [Matcher.matches, Request.normHost, hhost]
  | .header name _, h | .headerPresent name, h | .headerRegex name _, h | .headerJSON name _, h => by
    have hfield : (Input.field name).Agrees c c' := h _ (by simp [Matcher.inputs])
    simp only [Matcher.matches, hfield.values, hfield.present]
  | .method _, h => by
    have hmethod : c.req.effMethod = c'.req.effMethod := h .method (by simp [Matcher.inputs])
    rw [Matcher.matches, Matcher.matches, hmethod]
  | .upstream _, h => by
    have hup : c.upstream = c'.upstream := h .upstream (by simp [Matcher.inputs])
    rw [Matcher.matches, Matcher.matches, hup]
  | .contentType _, h | .respHeader _ _, h | .setCookie _, h => by
    have hresp : c.respHeader = c'.respHeader := h .response (by simp [Matcher.inputs])
    simp only [Matcher.matches, hresp]
  | .cookie name _, h => by
    have hcookie : (Input.cookie name).Agrees c c' := h _ (by simp [Matcher.inputs])
    simp only [Matcher.matches, hcookie.cookieNames, hcookie.cookieValue]
  | .cookieJSON name _, h => by
    have hcookie : c.req.header.cookieOf name = c'.req.header.cookieOf name :=
      h (.cookie name) (by simp [Matcher.inputs])
    rw [cookieOf, cookieOf] at hcookie
    simp only [Matcher.matches, hcookie]
  | .cookieGlob pre, h => by
    have hcookies : (Input.cookies pre).Agrees c c' := h _ (by simp [Matcher.inputs])
    rw [Matcher.matches, Matcher.matches, hcookies.prefixed]
  | .classify rows default _ _, h => by
    have hrows := resolveRows_agrees default rows fun i hi => h i (by simpa [Matcher.inputs] using hi)
    simp only [Matcher.matches, hrows]
  | .geo gran _, h => by
    have hgeo : (Input.geo gran).Agrees c c' := h _ (by simp [Matcher.inputs])
    cases gran <;> simp only [Matcher.matches, show _ = _ from hgeo]
  | .queryPresent _ _, h | .query _ _, h => by
    have hquery : c.req.query = c'.req.query := h .query (by simp [Matcher.inputs])
    simp only [Matcher.matches, hquery]
  | .ip _, h => by
    have hip : c.req.realClientIP = c'.req.realClientIP := h .realClientIP (by simp [Matcher.inputs])
    simp only [Matcher.matches, hip]
  | .all terms, h => by
    rw [Matcher.matches, Matcher.matches]
    exact respondTermsMatch_agrees terms fun i hi => h i (by simpa [Matcher.inputs] using hi)
  | .upstreamHealthy _, h => by
    have hpools : c.req.poolHealthy = c'.req.poolHealthy := h .pools (by simp [Matcher.inputs])
    simp only [Matcher.matches, hpools]

theorem respondTermsMatch_agrees : ∀ terms : List (Matcher × Bool),
    (∀ i ∈ termInputs terms, i.Agrees c c') → respondTermsMatch c terms = respondTermsMatch c' terms
  | [], _ => rfl
  | (m, _) :: terms, h => by
    have hm := m.matches_agrees fun i hi => h i (by simp [termInputs, hi])
    have hterms := respondTermsMatch_agrees terms fun i hi => h i (by simp [termInputs, hi])
    rw [respondTermsMatch, respondTermsMatch, hm, hterms]

theorem conjMatches_agrees : ∀ conj : List Matcher, (∀ i ∈ conjInputs conj, i.Agrees c c') →
    conjMatches c conj = conjMatches c' conj
  | [], _ => rfl
  | m :: conj, h => by
    have hm := m.matches_agrees fun i hi => h i (by simp [conjInputs, hi])
    have hconj := conjMatches_agrees conj fun i hi => h i (by simp [conjInputs, hi])
    rw [conjMatches, conjMatches, hm, hconj]

theorem resolveRows_agrees (default : Str) : ∀ rows : List (List Matcher × Str),
    (∀ i ∈ rowInputs rows, i.Agrees c c') → resolveRows c default rows = resolveRows c' default rows
  | [], _ => rfl
  | (conj, _) :: rows, h => by
    have hconj := conjMatches_agrees conj fun i hi => h i (by simp [rowInputs, hi])
    have hrows := resolveRows_agrees default rows fun i hi => h i (by simp [rowInputs, hi])
    rw [resolveRows, resolveRows, hconj, hrows]

end

end Agree

/-! ## The inputs of a recipe -/

def NormSource.input : NormSource → Input
  | .header name => .field name
  | .cookie name => .cookie name
  | .query _ => .query

/-- What a token reads. The sticky token reads the client address too, for want of a cookie. -/
def KeyToken.inputs (stickyCookie : Str) : KeyToken → List Input
  | .method => [.method]
  | .host => [.host]
  | .path => [.path]
  | .url => [.path, .query]
  | .query | .queryAllow _ | .queryStrip _ => [.query]
  | .header name => [.field name]
  | .cookie name => [.cookie name]
  | .sticky => [.cookie stickyCookie, .clientIP]
  | .device => [.device]
  | .geo => [.geo .country]
  | .geoContinent => [.geo .continent]
  | .geoRegion => [.geo .region]
  | .normalize n => [n.source.input]
  | .classify cl => rowInputs cl.rows
  | .tenant _ | .literal _ => []
  | .tenantFrom t => match t.fromHeader with
    | some name => [.field name]
    | none => [.host]

def recipeInputs (stickyCookie : Str) (toks : List KeyToken) : List Input :=
  (recipeTokens toks).flatMap (inputs stickyCookie)

section Agree

variable {c c' : MatchContext}

theorem canonicalQuery_agrees (h : Input.query.Agrees c c') (lead : Str) (keep : Str → Bool) :
    canonicalQuery c.req lead keep = canonicalQuery c'.req lead keep := by
  have hquery : c.req.query = c'.req.query := h
  rw [canonicalQuery, canonicalQuery, hquery]

theorem Normalizer.resolve_agrees {n : Normalizer} (h : n.source.input.Agrees c c') :
    n.resolve c.req = n.resolve c'.req := by
  have hvalue : n.sourceValue c.req = n.sourceValue c'.req := by
    rw [sourceValue, sourceValue]
    cases hsource : n.source with
    | header name =>
      rw [hsource] at h
      simp only [combined, Input.Agrees.values h]
    | cookie name =>
      rw [hsource] at h
      exact Input.Agrees.cookieValue h
    | query name =>
      rw [hsource] at h
      have hquery : c.req.query = c'.req.query := h
      simp only [hquery]
  rw [resolve, resolve, hvalue]

theorem writeToken_agrees {stickyCookie : Str} {t : KeyToken}
    (h : ∀ i ∈ t.inputs stickyCookie, i.Agrees c c') :
    writeToken c stickyCookie t = writeToken c' stickyCookie t := by
  cases t with
  | method => exact h .method (mem_singleton_self _)
  | host => exact congrArg normalizeHost (h .host (mem_singleton_self _))
  | path => exact congrArg keyValue (h .path (mem_singleton_self _))
  | url =>
    have hpath : c.req.path = c'.req.path := h .path (by simp [inputs])
    have hquery := canonicalQuery_agrees (h .query (by simp [inputs])) (lit "?") fun _ => true
    rw [writeToken, writeToken, hpath, hquery]
  | query | queryAllow | queryStrip =>
    exact canonicalQuery_agrees (h .query (mem_singleton_self _)) _ _
  | header name =>
    have hvalues := Input.Agrees.values (h (.field name) (mem_singleton_self _))
    simp only [writeToken, combined, hvalues]
  | cookie name =>
    exact congrArg keyValue (Input.Agrees.cookieValue (h (.cookie name) (mem_singleton_self _)))
  | sticky =>
    have hcookie := Input.Agrees.cookieValue (h (.cookie stickyCookie) (by simp [inputs]))
    have hip : c.req.clientIP = c'.req.clientIP := h .clientIP (by simp [inputs])
    rw [writeToken, writeToken, hcookie, hip]
  | device => exact h .device (mem_singleton_self _)
  | geo => exact h (.geo .country) (mem_singleton_self _)
  | geoContinent => exact h (.geo .continent) (mem_singleton_self _)
  | geoRegion => exact h (.geo .region) (mem_singleton_self _)
  | normalize n => exact Normalizer.resolve_agrees (h n.source.input (mem_singleton_self _))
  | classify cl => exact resolveRows_agrees cl.default cl.rows h
  | tenant _ | literal _ => rfl
  | tenantFrom t =>
    rw [inputs] at h
    rw [writeToken, writeToken, TenantResolver.resolve, TenantResolver.resolve]
    cases hfrom : t.fromHeader with
    | some name =>
      rw [hfrom] at h
      have hvalues := Input.Agrees.values (h (.field name) (mem_singleton_self _))
      simp only [combined, hvalues]
    | none =>
      rw [hfrom] at h
      have hhost : c.req.host = c'.req.host := h .host (mem_singleton_self _)
      simp only [Request.normHost, hhost]

theorem buildKey_agrees {stickyCookie : Str} {toks : List KeyToken}
    (h : ∀ i ∈ recipeInputs stickyCookie toks, i.Agrees c c') :
    buildKey c stickyCookie toks = buildKey c' stickyCookie toks := by
  rw [buildKey]
  congr 1
  refine map_congr_left fun t ht => writeToken_agrees fun i hi => h i ?_
  exact mem_flatMap.mpr ⟨t, ht, hi⟩

end Agree

/-! ## The inputs of a decision -/

def scopeInputs (s : Scope) : List Input := conjInputs (s.getD [])

def Selector.inputs (s : Selector) : List Input :=
  ((s.respHeader.map Matcher.inputs).getD []) ++
    match s.kind with
    | .scope sc => scopeInputs sc
    | _ => []

def RespondWhen.inputs : RespondWhen → List Input
  | .path _ => [.path]
  | .terms ts => termInputs ts

/-- What decides over the key of a request, apart from its recipe: the synthetic responses, the
routes and the selectors. -/
def Pipeline.decisionInputs (p : Pipeline) : List Input :=
  p.respondRules.flatMap (fun r => r.1.inputs) ++ p.routeRules.flatMap (fun r => scopeInputs r.1) ++
    p.keyRules.flatMap fun r => r.sel.inputs

section Agree

variable {c c' : MatchContext}

theorem scopeMatches_agrees : ∀ {s : Scope}, (∀ i ∈ scopeInputs s, i.Agrees c c') →
    c.scopeMatches s = c'.scopeMatches s
  | none, _ => rfl
  | some ms, h => by
    have hms : ∀ ms : List Matcher, (∀ i ∈ conjInputs ms, i.Agrees c c') →
        (ms.any fun m => m.matches c) = ms.any fun m => m.matches c' := by
      intro ms h
      induction ms with
      | nil => rfl
      | cons m ms ih =>
        have hm := m.matches_agrees fun i hi => h i (by simp [conjInputs, hi])
        have hms := ih fun i hi => h i (by simp [conjInputs, hi])
        rw [any_cons, any_cons, hm, hms]
    exact hms ms h

theorem Selector.matches_agrees {s : Selector} (h : ∀ i ∈ s.inputs, i.Agrees c c') (status : Nat) :
    s.matches c status = s.matches c' status := by
  obtain ⟨kind, respHeader⟩ := s
  refine congrArg₂ and ?_ ?_
  · cases respHeader with
    | none => rfl
    | some m => exact m.matches_agrees fun i hi => h i (by simp [Selector.inputs, hi])
  · cases kind with
    | scope sc => exact scopeMatches_agrees fun i hi => h i (by simp [Selector.inputs, hi])
    | _ => rfl

theorem respondMatches_agrees {w : RespondWhen} (h : ∀ i ∈ w.inputs, i.Agrees c c') :
    Pipeline.respondMatches c w = Pipeline.respondMatches c' w := by
  cases w with
  | path path =>
    have hpath : c.req.path = c'.req.path := h .path (mem_singleton_self _)
    rw [Pipeline.respondMatches, Pipeline.respondMatches, hpath]
  | terms ts => exact respondTermsMatch_agrees ts h

end Agree

namespace Pipeline

variable {p : Pipeline} {req req' : Request}

theorem resolveUpstream_agrees (h : ∀ i ∈ p.decisionInputs, i ≠ .upstream →
    i.Agrees (p.context req none) (p.context req' none)) :
    p.resolveUpstream req = p.resolveUpstream req' := by
  have hroute : ∀ r ∈ p.routeRules, MatchContext.scopeMatches ⟨req, [], none⟩ r.1 =
      MatchContext.scopeMatches ⟨req', [], none⟩ r.1 := by
    intro r hr
    refine scopeMatches_agrees fun i hi => ?_
    have hmem : i ∈ p.decisionInputs := by
      simp only [decisionInputs, mem_append, mem_flatMap]
      exact .inl (.inr ⟨r, hr, hi⟩)
    -- the routes are evaluated before there is an upstream
    by_cases hup : i = .upstream
    · subst hup
      rfl
    have hi := h i hmem hup
    cases i with
    | upstream => exact absurd rfl hup
    | geo gran => cases gran <;> exact hi
    | _ => exact hi
  rw [resolveUpstream, resolveUpstream, find?_congr hroute]

theorem evalRequest_agrees
    (hdecide : ∀ i ∈ p.decisionInputs, i ≠ .upstream →
      i.Agrees (p.context req none) (p.context req' none))
    (hredirect : ∀ rule ∈ p.redirectRules, rule (p.context req none) = rule (p.context req' none))
    (hrecipe : ∀ toks, (p.evalRequest req).selKey = some toks →
      ∀ i ∈ recipeInputs p.stickyCookie toks, i ≠ .upstream →
        i.Agrees (p.context req none) (p.context req' none)) :
    (p.evalRequest req).cacheKey = (p.evalRequest req').cacheKey := by
  have hup : p.resolveUpstream req = p.resolveUpstream req' := resolveUpstream_agrees hdecide
  have hall {i : Input} (h : i ≠ .upstream → i.Agrees (p.context req none) (p.context req' none)) :
      i.Agrees (p.context req none) (p.context req' none) := by
    by_cases hi : i = .upstream
    · subst hi
      exact hup
    · exact h hi
  have hrespond : (p.respondRules.find? fun r => respondMatches (p.context req none) r.1) =
      p.respondRules.find? fun r => respondMatches (p.context req' none) r.1 := by
    refine find?_congr fun r hr => respondMatches_agrees fun i hi => hall (hdecide i ?_)
    simp only [decisionInputs, mem_append, mem_flatMap]
    exact .inl (.inl ⟨r, hr, hi⟩)
  have hredir : (p.redirectRules.findSome? fun r => r (p.context req none)) =
      p.redirectRules.findSome? fun r => r (p.context req' none) := by
    generalize p.redirectRules = rules at hredirect
    induction rules with
    | nil => rfl
    | cons rule rules ih =>
      rw [findSome?_cons, findSome?_cons, hredirect rule mem_cons_self,
        ih fun r hr => hredirect r (mem_cons_of_mem _ hr)]
  have hselect : p.selectKeyTokens (p.context req none) = p.selectKeyTokens (p.context req' none) := by
    have hfind : (p.keyRules.find? fun r => r.sel.matches (p.context req none) 0) =
        p.keyRules.find? fun r => r.sel.matches (p.context req' none) 0 := by
      refine find?_congr fun r hr => Selector.matches_agrees (fun i hi => hall (hdecide i ?_)) 0
      simp only [decisionInputs, mem_append, mem_flatMap]
      exact .inr ⟨r, hr, hi⟩
    rw [selectKeyTokens, selectKeyTokens, hfind]
  simp only [evalRequest, hrespond, hredir] at hrecipe ⊢
  split
  · rfl
  case h_2 hnone =>
    rw [hnone] at hrecipe
    split
    · rfl
    case h_2 hnone' =>
      rw [hnone'] at hrecipe
      rw [← hselect]
      exact buildKey_agrees fun i hi => hall (hrecipe _ rfl i hi)

end Pipeline

end Cadish
