import Cadish.Geo.Netip
import Cadish.Pipeline.Duration
import Cadish.Pipeline.Edits
import Cadish.Pipeline.Vocabulary

/-!
# Compiling a site

The second pass of `Compile` reads the directives in source order. What a key is computed with is
the `KeyPlan`, and **directives reach it in five lanes** (`KeyPlan.directives_eq`). What the
languages of targets, patterns, values and rates are compiled to is a parameter; the checks at the
end that only refuse sites are left out.
-/

namespace Cadish

open Cadishfile Option Item

structure RedirectRule where
  eval : MatchContext → Option Redirect
  target : Str

structure Grammar extends PatternGrammar where
  compileRedirect : Vocabulary → List Str → Stmt → Option (List RedirectRule)
  purgePattern : Str → Bool → Request → Str
  compileTTL : FinMap Str Matcher → Stmt → Option TTLRule
  compileRateLimit : Nat → FinMap Str Matcher → Stmt → Option RateLimitRule
  compileHeader : FinMap Str Matcher → Stmt → Option (Scope × List Str)
  /-- `rewrite`, `cors`, `replace`, `encode` and `edge`: the scope of the rule -/
  compileAside : FinMap Str Matcher → Stmt → Option Scope
  knownDirective : Str → Bool

/-! ## Scopes and selectors -/

def ensureNotResponsePhase (s : Scope) : Bool := (s.getD []).all fun m => !m.isResponsePhase

variable (g : PatternGrammar) (s : Str) (matchers : FinMap Str Matcher) (w : Word) (v : Vocabulary)
  (words : List Word)

def leadingRefScope : Option (Scope × List Word) :=
  match words.takeWhile (·.ref) with
  | [] => some (none, words)
  | refs => (refs.mapM (resolveRef matchers)).map fun ms => (some ms, words.dropWhile (·.ref))

/-- `parseScopeAll`: references, or one matcher written in place; nothing is no scope. -/
def parseScopeAll : List Word → Option Scope
  | [] => some none
  | w :: words =>
    if w.ref then ((w :: words).mapM (resolveRef matchers)).map some
    else if g.isMatcherType w.raw then (g.compileMatcher w.raw (rawArgs words)).map fun m => some [m]
    else none

def isAllDigits : Bool := s ≠ [] && s.all isDigit

/-- `strconv.Atoi`, of a status: a negative number counts as zero. -/
def atoi : Option Nat := (parseInt64 s).map Int.toNat

/-- `parseSelector` of `default`, of a status list or of references. -/
def parsePlainSelector :
    List Word → Option (SelectorKind × List Word)
  | [] => none
  | w :: words =>
    if w.raw = lit "default" then some (.default, words)
    else if w.raw = lit "status" then
      let negate := (words.head?.map (·.raw)) = some (lit "not")
      let words := if negate then words.drop 1 else words
      let codes := (words.takeWhile fun w => isAllDigits w.raw).map fun w => digitsVal 10 w.raw
      if codes = [] then none
      else some (if negate then .statusNotIn codes else .statusIn codes, words.drop codes.length)
    else if w.ref then
      (((w :: words).takeWhile (·.ref)).mapM (resolveRef matchers)).map fun ms =>
        (.scope (some ms), (w :: words).dropWhile (·.ref))
    else none

def isSelectorTailKeyword : Bool :=
  [lit "ttl", lit "from_header", lit "hit_for_miss", lit "grace", lit "grace_from_header",
    lit "max_stale", lit "max_stale_from_header", lit "status", lit "->"].elem s

/-- `parseSelector`: a response-header term may stand before a status list or references. -/
def parseSelector : Option (Selector × List Word) :=
  match words with
  | [] => none
  | w :: rest =>
    if w.raw = lit "resp_header" then
      match rest with
      | name :: value :: rest => do
        guard (name.raw ≠ [] ∧ !isSelectorTailKeyword value.raw)
        let m ← g.compileMatcher (lit "resp_header") [name.raw, value.raw]
        if rest.head?.any fun w => w.raw = lit "status" ∨ w.ref then
          (parsePlainSelector matchers rest).map fun s => (⟨s.1, some m⟩, s.2)
        else some (⟨.default, some m⟩, rest)
      | _ => none
    else (parsePlainSelector matchers words).map fun s => (⟨s.1, none⟩, s.2)

/-! ## Rules before the key -/

def isSecRefArg : Bool := w.ref || Str.hasPrefix w.raw (lit "!@")

def secTerm : Option (Matcher × Bool) := do
  let (name, negate) ← parseSecRef w
  let m ← matchers.lookup name
  guard (!m.isResponsePhase)
  some (m, negate)

def firstRaw : Str := (words.head?.map (·.raw)).getD []

def compileScopedRespond : Option (RespondWhen × Synthetic) := do
  let terms ← (words.takeWhile isSecRefArg).mapM (secTerm matchers)
  match words.dropWhile isSecRefArg with
  | status :: body => do
    let code ← atoi status.raw
    some (.terms terms, ⟨code, firstRaw body⟩)
  | [] => none

def compileRespond : List Word → Option (RespondWhen × Synthetic)
  | path :: status :: body =>
    if isSecRefArg path then compileScopedRespond matchers (path :: status :: body)
    else do
      let code ← atoi status.raw
      some (.path path.raw, ⟨code, firstRaw body⟩)
  | _ => none

/-- `compileRoute`: to a declared upstream, if any is declared. -/
def compileRoute : Option (Scope × Str) :=
  match cutArrow words with
  | (cond, _ :: upstream :: _) => do
    guard (v.upstreamNames = [] ∨ upstream.raw ∈ v.upstreamNames)
    let s ← parseScopeAll g v.matchers cond
    guard (ensureNotResponsePhase s)
    some (s, upstream.raw)
  | _ => none

/-! ## Recipes -/

def isKeyTokenStart (raw : Str) : Bool :=
  [lit "method", lit "host", lit "path", lit "url", lit "query", lit "query_allow",
    lit "query_strip"].elem raw ||
  Str.hasPrefix raw (lit "header:") || Str.hasPrefix raw (lit "cookie:") || isBraced raw

/-- `compileKeyToken`. A resolver of the tenant goes before its name, and a normalizer before a
classifier. -/
def compileKeyToken (raw : Str) : Option KeyToken :=
  if raw = lit "method" then some .method
  else if raw = lit "host" then some .host
  else if raw = lit "path" then some .path
  else if raw = lit "url" then some .url
  else if raw = lit "query" then some .query
  else if raw = lit "\x7bsticky\x7d" then some .sticky
  else if raw = lit "\x7bdevice\x7d" then some .device
  else if raw = lit "\x7bgeo\x7d" then some .geo
  else if raw = lit "\x7bgeo.continent\x7d" then some .geoContinent
  else if raw = lit "\x7bgeo.region\x7d" then some .geoRegion
  else if raw = lit "\x7btenant\x7d" then
    some (v.tenantResolver.elim (.tenant v.tenant) .tenantFrom)
  else if Str.hasPrefix raw (lit "header:") then
    let name := raw.drop 7
    if name = [] then none else some (.header name)
  else if Str.hasPrefix raw (lit "cookie:") then
    let name := raw.drop 7
    if name = [] then none else some (.cookie name)
  else if isBraced raw then
    let name := (raw.drop 1).dropLast
    ((v.normalizers.lookup name).map .normalize).or ((v.classifiers.lookup name).map .classify)
  else some (.literal raw)

/-- The loop of `compileCacheKey`; the number is of the words that the last token took. -/
def compileKeyTokens (g : PatternGrammar) (v : Vocabulary) : Nat → List Word → Option (List KeyToken)
  | _, [] => some []
  | taken + 1, _ :: words => compileKeyTokens g v taken words
  | 0, w :: words =>
    if w.raw = lit "query_allow" ∨ w.raw = lit "query_strip" then do
      let names := rawArgs (words.takeWhile fun u => !isKeyTokenStart u.raw)
      guard (names ≠ [])
      let toks ← compileKeyTokens g v names.length words
      let set := g.newNameGlobSet names
      some ((if w.raw = lit "query_allow" then .queryAllow set else .queryStrip set) :: toks)
    else do
      let tok ← compileKeyToken v w.raw
      let toks ← compileKeyTokens g v 0 words
      some (tok :: toks)

def KeyToken.isQueryAllow : KeyToken → Bool
  | .queryAllow _ => true
  | _ => false

def KeyToken.isQueryStrip : KeyToken → Bool
  | .queryStrip _ => true
  | _ => false

def KeyToken.isWholeQuery : KeyToken → Bool
  | .url | .query => true
  | _ => false

/-- `compileCacheKey`. Parameters are not dropped and kept, nor dropped and rendered all the
same. -/
def compileCacheKey : Option (List KeyToken) := do
  let toks ← compileKeyTokens g v 0 words
  guard (!(toks.any KeyToken.isQueryStrip &&
    (toks.any KeyToken.isQueryAllow || toks.any KeyToken.isWholeQuery)))
  some toks

def looksLikeKeySelector : Bool := w.ref || w.raw = lit "default" || w.raw = lit "status"

def SelectorKind.beforeResponse : SelectorKind → Bool
  | .statusIn _ | .statusNotIn _ => false
  | .scope s => ensureNotResponsePhase s
  | .default => true

def compileCacheKeyRule : Option KeyRule :=
  if words.head?.any looksLikeKeySelector then do
    let (sel, rest) ← parseSelector g v.matchers words
    guard sel.kind.beforeResponse
    let toks ← compileCacheKey g v rest
    some ⟨sel, toks⟩
  else do
    let toks ← compileCacheKey g v words
    some ⟨⟨.default, none⟩, toks⟩

def SelectorKind.isDefault : SelectorKind → Bool
  | .default => true
  | _ => false

/-- `validateKeyRules`: recipes for some requests need one for the others. -/
def validateKeyRules (rules : List KeyRule) : Bool :=
  rules.all (fun r => r.sel.kind.isDefault) || rules.any (fun r => r.sel.kind.isDefault)

/-! ## Other rules -/

/-- The scope of a rule that is never unconditional and needs no response. -/
def requestScope : Option Scope := do
  let s ← parseScopeAll g matchers words
  guard (s.isSome ∧ ensureNotResponsePhase s)
  some s

/-- `compilePurge`: `when` a condition, perhaps with an expression over the key or the path. -/
def compilePurge (g : Grammar) (matchers : FinMap Str Matcher) :
    List Word → Option (Scope × (Request → Str))
  | [] => none
  | w :: words => do
    guard (w.raw = lit "when")
    let (cond, tail) := words.span fun w => w.raw ≠ lit "regex" ∧ w.raw ≠ lit "regex-path"
    guard (tail.length ≠ 1)
    let s ← requestScope g.toPatternGrammar matchers cond
    some (s, g.purgePattern (firstRaw (tail.drop 1)) (firstRaw tail = lit "regex-path"))

def cutContentType : List Word → Str × List Word
  | w :: type :: words =>
    if w.raw = lit "content_type" then (type.raw, words)
    else
      let (found, rest) := cutContentType (type :: words)
      (found, w :: rest)
  | words => (lit "text/html; charset=utf-8", words)

def compileOnError : Option (Scope × OnError) := do
  let (contentType, words) := cutContentType words
  let (s, rest) ← leadingRefScope matchers words
  guard (ensureNotResponsePhase s)
  match rest with
  | status :: body :: _ => do
    let code ← atoi status.raw
    some (s, ⟨code, body.raw, contentType⟩)
  | _ => none

def compileSecurityRule : Option SecRule :=
  let monitor := (words.getLast?.map (·.raw)) = some (lit "monitor")
  let words := if monitor then words.dropLast else words
  match words with
  | [] => none
  | w :: rest =>
    if isSecRefArg w then do
      let refs := words.filter fun w => !w.isAnd
      let terms ← refs.mapM (secTerm matchers)
      guard (terms.length ≠ 0)
      let name := (refs.filterMap parseSecRef).find? fun r => !r.2 ∧ r.1 ≠ []
      some ⟨terms, monitor, (name.map Prod.fst).getD []⟩
    else if g.isMatcherType w.raw then do
      let m ← g.compileMatcher w.raw (rawArgs rest)
      guard (!m.isResponsePhase)
      some ⟨[(m, false)], monitor, []⟩
    else none

def compileMonitorToggle : Option Bool :=
  match rawArgs words with
  | [] => some true
  | [toggle] =>
    if toggle = lit "on" then some true else if toggle = lit "off" then some false else none
  | _ => none

def compileStorage : Option (Selector × Tier) := do
  let (sel, rest) ← parseSelector g matchers words
  match rawArgs rest with
  | [arrow, tier] => do
    guard (arrow = lit "->")
    if tier = lit "ram" then some (sel, .ram)
    else if tier = lit "disk" then some (sel, .disk)
    else none
  | _ => none

/-! ## The second loop -/

structure KeyPlan where
  respondRules : List (RespondWhen × Synthetic) := []
  redirectRules : List RedirectRule := []
  routeRules : List (Scope × Str) := []
  keyRules : List KeyRule := []
  /-- the cookies that are kept, if the site lists them -/
  cookieAllow : Option Pattern := none

structure RestPlan where
  /-- a directive of the phases from the key on was read -/
  pastKey : Bool := false
  onErrorRules : List (Scope × OnError) := []
  purgeRules : List (Scope × (Request → Str)) := []
  passRules : List Scope := []
  upgradeRules : List Scope := []
  credentialedRules : List Scope := []
  allowRules : List SecRule := []
  denyRules : List SecRule := []
  rateLimitRules : List RateLimitRule := []
  securityMonitor : Bool := false
  ttlRules : List TTLRule := []
  storageRules : List (Selector × Tier) := []
  cacheUnsafe : Bool := false
  ignoreClientRevalidation : Bool := false
  stripRules : List Scope := []
  /-- the scopes of header, rewrite, CORS and replacement rules -/
  asideScopes : List Scope := []
  delivered : List Str := []
  hasCors : Bool := false
  hasEncode : Bool := false

def Cadishfile.Stmt.isOnError (d : Stmt) : Bool := firstRaw d.words = lit "on_error"

def KeyPlan.directive (g : Grammar) (v : Vocabulary) (addresses : List Str) (k : KeyPlan) (d : Stmt) :
    Option KeyPlan :=
  if d.name = lit "respond" then
    if d.isOnError then some k
    else (compileRespond v.matchers d.words).map fun r =>
      { k with respondRules := k.respondRules ++ [r] }
  else if d.name = lit "redirect" then
    (g.compileRedirect v addresses d).map fun rs => { k with redirectRules := k.redirectRules ++ rs }
  else if d.name = lit "route" then
    (compileRoute g.toPatternGrammar v d.words).map fun r =>
      { k with routeRules := k.routeRules ++ [r] }
  else if d.name = lit "cache_key" then
    (compileCacheKeyRule g.toPatternGrammar v d.words).map fun r =>
      { k with keyRules := k.keyRules ++ [r] }
  else if d.name = lit "cookie_allow" then
    if d.block.isSome then none
    else some { k with cookieAllow := some (g.newNameGlobSet (rawArgs d.words)) }
  else some k

/-- The directives of a site that are read elsewhere, or of which the key plan is made. -/
def setupDirectives : List Str :=
  [lit "tls", lit "cache", lit "upstream", lit "cluster", lit "origin", lit "lb", lit "sticky",
    lit "device_detect", lit "geo", lit "normalize", lit "tenant", lit "classify",
    lit "redirect", lit "route", lit "cookie_allow"]

/-- A directive, as it reaches the other rules. A header before the key is one of the request. -/
def RestPlan.directive (g : Grammar) (v : Vocabulary) (r : RestPlan) (d : Stmt) : Option RestPlan :=
  let p := g.toPatternGrammar
  if setupDirectives.elem d.name then some r
  else if d.name = lit "respond" then
    if d.isOnError then (compileOnError v.matchers (d.words.drop 1)).map fun rule =>
      { r with onErrorRules := r.onErrorRules ++ [rule] }
    else some r
  else if d.name = lit "cache_key" then some { r with pastKey := true }
  else if d.name = lit "purge" then
    (compilePurge g v.matchers d.words).map fun rule => { r with purgeRules := r.purgeRules ++ [rule] }
  else if d.name = lit "pass" then
    (requestScope p v.matchers d.words).map fun s => { r with passRules := r.passRules ++ [s] }
  else if d.name = lit "upgrade" then
    (requestScope p v.matchers d.words).map fun s => { r with upgradeRules := r.upgradeRules ++ [s] }
  else if d.name = lit "cache_credentialed" then
    (requestScope p v.matchers d.words).map fun s =>
      { r with credentialedRules := r.credentialedRules ++ [s] }
  else if d.name = lit "allow" then
    (compileSecurityRule p v.matchers d.words).map fun rule =>
      { r with allowRules := r.allowRules ++ [rule] }
  else if d.name = lit "deny" ∨ d.name = lit "block" then
    (compileSecurityRule p v.matchers d.words).map fun rule =>
      { r with denyRules := r.denyRules ++ [rule] }
  else if d.name = lit "rate_limit" then
    (g.compileRateLimit r.rateLimitRules.length v.matchers d).map fun rule =>
      { r with rateLimitRules := r.rateLimitRules ++ [rule] }
  else if d.name = lit "monitor" then
    (compileMonitorToggle d.words).map fun on => { r with securityMonitor := on }
  else if d.name = lit "cache_ttl" then
    (g.compileTTL v.matchers d).map fun rule =>
      { r with pastKey := true, ttlRules := r.ttlRules ++ [rule] }
  else if d.name = lit "storage" then
    (compileStorage p v.matchers d.words).map fun rule =>
      { r with pastKey := true, storageRules := r.storageRules ++ [rule] }
  else if d.name = lit "cache_unsafe" then
    if d.words = [] then some { r with cacheUnsafe := true } else none
  else if d.name = lit "client_cache_control" then
    if rawArgs d.words = [lit "ignore"] then some { r with ignoreClientRevalidation := true } else none
  else if d.name = lit "strip_cookies" then
    (parseScopeAll p v.matchers d.words).map fun s =>
      { r with pastKey := true, stripRules := r.stripRules ++ [s] }
  else if d.name = lit "cors" then do
    let s ← g.compileAside v.matchers d
    guard (!r.hasCors)
    some { r with pastKey := true, hasCors := true, asideScopes := r.asideScopes ++ [s] }
  else if d.name = lit "replace" then
    (g.compileAside v.matchers d).map fun s =>
      { r with pastKey := true, asideScopes := r.asideScopes ++ [s] }
  else if d.name = lit "encode" then do
    let _ ← g.compileAside v.matchers d
    guard (!r.hasEncode)
    some { r with pastKey := true, hasEncode := true }
  else if d.name = lit "rewrite" then
    (g.compileAside v.matchers d).map fun s => { r with asideScopes := r.asideScopes ++ [s] }
  else if d.name = lit "edge" then (g.compileAside v.matchers d).map fun _ => r
  else if d.name = lit "header" then do
    let (s, values) ← g.compileHeader v.matchers d
    guard (r.pastKey ∨ ensureNotResponsePhase s)
    some { r with
      asideScopes := r.asideScopes ++ [s]
      delivered := if r.pastKey then r.delivered ++ values else r.delivered }
  else if g.knownDirective d.name then some r
  else none

structure Plan where
  key : KeyPlan := {}
  rest : RestPlan := {}

def Plan.item (g : Grammar) (v : Vocabulary) (addresses : List Str) (p : Plan) : Item → Option Plan
  | .matcherDef _ _ _ => some p
  | .directive d => do
    let key ← p.key.directive g v addresses d
    let rest ← p.rest.directive g v d
    some ⟨key, rest⟩

structure Compiled where
  names : Vocabulary
  plan : Plan

def compile (g : Grammar) (addresses : List Str) (items : List Item) : Option Compiled := do
  let v ← vocabulary g.toPatternGrammar items
  let plan ← items.foldlM (Plan.item g v addresses) {}
  guard (validateKeyRules plan.key.keyRules)
  some ⟨v, plan⟩

namespace Compiled

variable (c : Compiled)

def pipeline : Pipeline where
  gate := ⟨c.plan.rest.allowRules, c.plan.rest.denyRules, c.plan.rest.securityMonitor,
    c.plan.rest.rateLimitRules⟩
  respondRules := c.plan.key.respondRules
  onErrorRules := c.plan.rest.onErrorRules
  redirectRules := c.plan.key.redirectRules.map (·.eval)
  purgeRules := c.plan.rest.purgeRules
  routeRules := c.plan.key.routeRules
  defaultUpstream := []
  passRules := c.plan.rest.passRules
  upgradeRules := c.plan.rest.upgradeRules
  credentialedRules := c.plan.rest.credentialedRules
  keyRules := c.plan.key.keyRules
  stickyCookie := c.names.stickyCookie
  ttlRules := c.plan.rest.ttlRules
  storageRules := c.plan.rest.storageRules
  cacheUnsafe := c.plan.rest.cacheUnsafe
  ignoreClientRevalidation := c.plan.rest.ignoreClientRevalidation
  cookieAllow := c.plan.key.cookieAllow
  stripRules := c.plan.rest.stripRules

/-! ## The pre-passes a site needs -/

/-- `deliverTemplateReferencesToken`: a response header or a redirect target has one of these. -/
def deliverTemplateReferencesToken (needles : List Str) : Bool :=
  (c.plan.rest.delivered ++ c.plan.key.redirectRules.map (·.target)).any fun s =>
    needles.any fun n => Str.contains s n

def usesDeviceClassification : Bool :=
  c.plan.key.keyRules.any (fun r => (maskFromTokens r.toks).device) ||
    c.deliverTemplateReferencesToken [lit "\x7bdevice\x7d"]

def selScope (s : Selector) : Scope :=
  match s.kind with
  | .scope sc => sc
  | _ => none

/-- `forEachScope`. -/
def scopes : List Scope :=
  let r := c.plan.rest
  r.purgeRules.map Prod.fst ++ r.onErrorRules.map Prod.fst ++ c.plan.key.routeRules.map Prod.fst ++
    r.passRules ++ r.upgradeRules ++ r.asideScopes ++ r.ttlRules.map (fun t => selScope t.sel) ++
    r.storageRules.map (fun t => selScope t.1) ++ c.plan.key.keyRules.map (fun k => selScope k.sel) ++
    r.stripRules ++ r.rateLimitRules.map (·.scope)

/-- A kind of matcher is named, stands in a scope, in the row of a classifier or in the gate. -/
def mentions (kind : Matcher → Bool) : Bool :=
  c.names.matchers.entries.any (fun m => kind m.2) ||
    c.scopes.any (fun s => (s.getD []).any kind) ||
    c.names.classifiers.entries.any (fun cl => cl.2.rows.any fun row => row.1.any kind) ||
    (c.plan.rest.allowRules ++ c.plan.rest.denyRules).any fun r => r.terms.any fun t => kind t.1

end Compiled

def Matcher.isGeo : Matcher → Bool
  | .geo _ _ => true
  | _ => false

def Matcher.isUpstreamHealthy : Matcher → Bool
  | .upstreamHealthy _ => true
  | _ => false

def RespondWhen.mentions (kind : Matcher → Bool) : RespondWhen → Bool
  | .path _ => false
  | .terms ts => ts.any fun t => kind t.1

namespace Compiled

variable (c : Compiled)

def usesGeoToken : Bool :=
  c.plan.key.keyRules.any (fun r =>
      let m := maskFromTokens r.toks
      m.geo || m.geoContinent || m.geoRegion) ||
    c.deliverTemplateReferencesToken
      [lit "\x7bgeo\x7d", lit "\x7bgeo.continent\x7d", lit "\x7bgeo.region\x7d"] ||
    c.mentions Matcher.isGeo

/-- `computeNeedsPoolHealth`; it looks at synthetic responses too. -/
def needsPoolHealth : Bool :=
  c.mentions Matcher.isUpstreamHealthy ||
    c.plan.key.respondRules.any fun r => r.1.mentions Matcher.isUpstreamHealthy

end Compiled

/-! ## The lanes of the key plan -/

section Lanes

variable {g : Grammar} {v : Vocabulary} {addresses : List Str}

namespace KeyPlan

/-- What a directive leaves of the plan: all lists but that of its name. -/
structure Keeps (name : Str) (k k' : KeyPlan) : Prop where
  respond : name ≠ lit "respond" → k'.respondRules = k.respondRules
  redirect : name ≠ lit "redirect" → k'.redirectRules = k.redirectRules
  route : name ≠ lit "route" → k'.routeRules = k.routeRules
  cacheKey : name ≠ lit "cache_key" → k'.keyRules = k.keyRules
  cookieAllow : name ≠ lit "cookie_allow" → k'.cookieAllow = k.cookieAllow

theorem directive_keeps {k k' : KeyPlan} {d : Stmt} (h : k.directive g v addresses d = some k') :
    Keeps d.name k k' := by
  simp only [directive] at h
  split_ifs at h <;> simp only [map_eq_some_iff, some.injEq] at h <;>
    constructor <;> grind

theorem item_directive {p p' : Plan} {d : Stmt}
    (hp : p.item g v addresses (.directive d) = some p') :
    p.key.directive g v addresses d = some p'.key := by
  obtain ⟨k, hk, hp⟩ := bind_eq_some_iff.mp hp
  obtain ⟨r, -, hp⟩ := bind_eq_some_iff.mp hp
  obtain rfl := some.inj hp
  exact hk

theorem lane_named {τ : Type} {part : KeyPlan → τ} {name : Str}
    (hother : ∀ {k k' : KeyPlan} {d : Stmt}, d.name ≠ name → k.directive g v addresses d = some k' →
      part k' = part k)
    (hown : ∀ {k l : KeyPlan} {d : Stmt}, d.name = name → part k = part l →
      (k.directive g v addresses d).map part = (l.directive g v addresses d).map part) :
    Lane (Plan.item g v addresses) (fun p => part p.key) (isNamed [name]) where
  own := by
    intro p q a p' q' ha hpart hp hq
    cases a with
    | matcherDef name type words => cases ha
    | directive d =>
      have hmap := hown (List.mem_singleton.mp (List.elem_iff.mp ha)) hpart
      rw [item_directive hp, item_directive hq] at hmap
      exact some.inj hmap
  other := by
    intro p a p' ha hp
    cases a with
    | matcherDef name type words =>
      obtain rfl := some.inj hp
      rfl
    | directive d =>
      refine hother (fun hname => ?_) (item_directive hp)
      rw [isNamed, List.elem_iff.mpr (List.mem_singleton.mpr hname)] at ha
      cases ha

theorem lane_respond :
    Lane (Plan.item g v addresses) (fun p => p.key.respondRules) (isNamed [lit "respond"]) := by
  refine @lane_named g v addresses _ respondRules _
    (fun hd h => (directive_keeps h).respond hd) ?_
  intro k l d hd hpart
  simp only [directive, hd, if_true]
  split
  · exact congrArg some hpart
  · simp only [Option.map_map, Function.comp_def, hpart]

theorem lane_redirect :
    Lane (Plan.item g v addresses) (fun p => p.key.redirectRules) (isNamed [lit "redirect"]) := by
  refine @lane_named g v addresses _ redirectRules _
    (fun hd h => (directive_keeps h).redirect hd) ?_
  intro k l d hd hpart
  have hdir (k : KeyPlan) : k.directive g v addresses d = (g.compileRedirect v addresses d).map
      fun rs => { k with redirectRules := k.redirectRules ++ rs } := by
    rw [directive, hd, if_neg (by decide), if_pos rfl]
  simp only [hdir, Option.map_map, Function.comp_def, hpart]

theorem lane_route :
    Lane (Plan.item g v addresses) (fun p => p.key.routeRules) (isNamed [lit "route"]) := by
  refine @lane_named g v addresses _ routeRules _
    (fun hd h => (directive_keeps h).route hd) ?_
  intro k l d hd hpart
  have hdir (k : KeyPlan) : k.directive g v addresses d =
      (compileRoute g.toPatternGrammar v d.words).map
        fun r => { k with routeRules := k.routeRules ++ [r] } := by
    rw [directive, hd, if_neg (by decide), if_neg (by decide), if_pos rfl]
  simp only [hdir, Option.map_map, Function.comp_def, hpart]

theorem lane_cache_key :
    Lane (Plan.item g v addresses) (fun p => p.key.keyRules) (isNamed [lit "cache_key"]) := by
  refine @lane_named g v addresses _ keyRules _
    (fun hd h => (directive_keeps h).cacheKey hd) ?_
  intro k l d hd hpart
  have hdir (k : KeyPlan) : k.directive g v addresses d =
      (compileCacheKeyRule g.toPatternGrammar v d.words).map
        fun r => { k with keyRules := k.keyRules ++ [r] } := by
    rw [directive, hd, if_neg (by decide), if_neg (by decide), if_neg (by decide), if_pos rfl]
  simp only [hdir, Option.map_map, Function.comp_def, hpart]

theorem lane_cookie_allow :
    Lane (Plan.item g v addresses) (fun p => p.key.cookieAllow) (isNamed [lit "cookie_allow"]) := by
  refine @lane_named g v addresses _ cookieAllow _
    (fun hd h => (directive_keeps h).cookieAllow hd) ?_
  intro k l d hd _
  have hdir (k : KeyPlan) : k.directive g v addresses d = if d.block.isSome then none
      else some { k with cookieAllow := some (g.newNameGlobSet (rawArgs d.words)) } := by
    rw [directive, hd, if_neg (by decide), if_neg (by decide), if_neg (by decide),
      if_neg (by decide), if_pos rfl]
  rw [hdir, hdir]
  split <;> rfl

end KeyPlan

structure SameKeyPlan (items items' : List Item) : Prop where
  respond : items.filter (isNamed [lit "respond"]) = items'.filter (isNamed [lit "respond"])
  redirect : items.filter (isNamed [lit "redirect"]) =
    items'.filter (isNamed [lit "redirect"])
  route : items.filter (isNamed [lit "route"]) = items'.filter (isNamed [lit "route"])
  recipes : items.filter (isNamed [lit "cache_key"]) =
    items'.filter (isNamed [lit "cache_key"])
  cookies : items.filter (isNamed [lit "cookie_allow"]) =
    items'.filter (isNamed [lit "cookie_allow"])

theorem KeyPlan.directives_eq {items items' : List Item} {p p' : Plan} (h : SameKeyPlan items items')
    (hp : items.foldlM (Plan.item g v addresses) {} = some p)
    (hp' : items'.foldlM (Plan.item g v addresses) {} = some p') : p.key = p'.key := by
  have hrespond := KeyPlan.lane_respond.part_eq rfl h.respond hp hp'
  have hredirect := KeyPlan.lane_redirect.part_eq rfl h.redirect hp hp'
  have hroute := KeyPlan.lane_route.part_eq rfl h.route hp hp'
  have hrecipes := KeyPlan.lane_cache_key.part_eq rfl h.recipes hp hp'
  have hcookies := KeyPlan.lane_cookie_allow.part_eq rfl h.cookies hp hp'
  obtain ⟨⟨_, _, _, _, _⟩, _⟩ := p'
  obtain rfl := hrespond
  obtain rfl := hredirect
  obtain rfl := hroute
  obtain rfl := hrecipes
  obtain rfl := hcookies
  rfl

end Lanes

theorem compile_eq {g : Grammar} {addresses : List Str} {items items' : List Item} {c c' : Compiled}
    (hnames : SameNames items items') (hkey : SameKeyPlan items items')
    (hc : compile g addresses items = some c) (hc' : compile g addresses items' = some c') :
    c.names = c'.names ∧ c.plan.key = c'.plan.key := by
  obtain ⟨v, hv, hc⟩ := bind_eq_some_iff.mp hc
  obtain ⟨p, hp, hc⟩ := bind_eq_some_iff.mp hc
  obtain ⟨-, -, hc⟩ := bind_eq_some_iff.mp hc
  obtain rfl := some.inj hc
  obtain ⟨v', hv', hc'⟩ := bind_eq_some_iff.mp hc'
  obtain ⟨p', hp', hc'⟩ := bind_eq_some_iff.mp hc'
  obtain ⟨-, -, hc'⟩ := bind_eq_some_iff.mp hc'
  obtain rfl := some.inj hc'
  obtain rfl := vocabulary_eq hnames hv hv'
  exact ⟨rfl, KeyPlan.directives_eq hkey hp hp'⟩

end Cadish
