import Cadish.Pipeline.Glob
import Cadish.Pipeline.Redirect

/-!
# The plan of a site, as the projector reads it

A `Plan` is a compiled pipeline with the texts that the projector reads; `Plan.pipeline` is what it
compiles to, for given `Engines`: the regex library, the test of a JSON field, and the prefixes of
addresses. A matcher is a leaf, a test of a classified value, or a conjunction; an inline matcher
has no name.
-/

namespace Cadish.Edge

/-! ## Matchers -/

/-- A matcher that refers to no other one. Its regex is a source on the server, and a pattern with
flags at the edge. -/
inductive Leaf (ρ : Type) where
  | path (patterns : List Str)
  | pathRegex (re : ρ)
  | host (patterns : List Str)
  | hostRegex (re : ρ)
  | header (name : Str) (values : List Str)
  | headerRegex (name : Str) (re : ρ)
  | method (methods : List Str)
  | upstream (upstreams : List Str)
  | contentType (types : List Str)
  | respHeader (name : Str) (values : List Str)
  | cookie (name : Str) (values : List Str)
  | cookieGlob (namePrefix : Str)
  | cookieJSON (name jsonPath : Str) (values : List Str)
  | headerJSON (name jsonPath : Str) (values : List Str)
  | setCookie (names : List Str)
  | geo (gran : GeoGranularity) (values : List Str)
  | queryPresent (names nonEmpty : List Str)
  | query (name : Str) (values : List Str)
  | ip (prefixes : List Str)
  | upstreamHealthy (pools : List Str)

/-- A compiled matcher with its texts, and its references by name and by what they refer to. -/
inductive PlanMatcher where
  | leaf (l : Leaf Str)
  | classify (token : Str) (rows : List (List (Str × PlanMatcher) × Str)) (default value : Str)
      (negate : Bool)
  | all (terms : List ((Str × PlanMatcher) × Bool))

structure Engines where
  find : Str → PathRegex
  /-- a field of a JSON value, by its path, against the values it may have -/
  json : Str → List Str → Pattern
  prefixes : List Str → Pattern

def Engines.regex (E : Engines) (src : Str) : Pattern := fun s => (E.find src s).isSome

def nameGlobSet (names : List Str) : Pattern := fun name =>
  names.elem [star] || (names.filter fun n => star ∉ n).elem name ||
    (names.filter fun n => star ∈ n ∧ n ≠ [star]).any fun n => (compileGlob n).matches name

def Leaf.compile (E : Engines) : Leaf Str → Matcher
  | .path patterns => .path (PathSet.ofPatterns patterns).matches
  | .pathRegex src => .pathRegex (E.regex src)
  | .host patterns => .host (hostSetMatch patterns)
  | .hostRegex src => .hostRegex (E.regex src)
  | .header name values => .header name values
  | .headerRegex name src => .headerRegex name (E.regex src)
  | .method methods => .method methods
  | .upstream upstreams => .upstream upstreams
  | .contentType types => .contentType types
  | .respHeader name values => .respHeader name (if values = [] then none else some (nameGlobSet values))
  | .cookie name values => .cookie name values
  | .cookieGlob namePrefix => .cookieGlob namePrefix
  | .cookieJSON name jsonPath values => .cookieJSON name (E.json jsonPath values)
  | .headerJSON name jsonPath values => .headerJSON name (E.json jsonPath values)
  | .setCookie names => .setCookie names
  | .geo gran values => .geo gran values
  | .queryPresent names nonEmpty =>
    .queryPresent (nameGlobSet names) (if nonEmpty = [] then none else some (nameGlobSet nonEmpty))
  | .query name values => .query name values
  | .ip prefixes => .ip (E.prefixes prefixes)
  | .upstreamHealthy pools => .upstreamHealthy pools

mutual

def PlanMatcher.compile (E : Engines) : PlanMatcher → Matcher
  | .leaf l => l.compile E
  | .classify _ rows default value negate => .classify (compileRows E rows) default value negate
  | .all terms => .all (compileTerms E terms)

def compileConj (E : Engines) : List (Str × PlanMatcher) → List Matcher
  | [] => []
  | (_, m) :: conj => m.compile E :: compileConj E conj

def compileRows (E : Engines) : List (List (Str × PlanMatcher) × Str) → List (List Matcher × Str)
  | [] => []
  | (conj, value) :: rows => (compileConj E conj, value) :: compileRows E rows

def compileTerms (E : Engines) : List ((Str × PlanMatcher) × Bool) → List (Matcher × Bool)
  | [] => []
  | ((_, m), negate) :: terms => (m.compile E, negate) :: compileTerms E terms

end

/-- A scope: a disjunction of matchers; `none` always matches. -/
abbrev PlanScope := Option (List (Str × PlanMatcher))

def compileScope (E : Engines) (s : PlanScope) : Scope := s.map (compileConj E)

/-! ## Tables, tokens and rules -/

structure PlanClassifier where
  rows : List (List (Str × PlanMatcher) × Str) := []
  default : Str := []
  derivesFrom : List Str := []
  derivesForward : List Str := []

def PlanClassifier.compile (E : Engines) (cl : PlanClassifier) : Classifier where
  rows := compileRows E cl.rows
  default := cl.default
  derivesFrom := cl.derivesFrom
  derivesForward := cl.derivesForward

inductive PlanToken where
  | method
  | host
  | path
  | url
  | query
  | queryAllow (names : List Str)
  | queryStrip (names : List Str)
  | header (name : Str)
  | cookie (name : Str)
  | sticky
  | device
  | geo
  | geoContinent
  | geoRegion
  | normalize (ref : Str)
  | classify (ref : Str)
  | tenant
  | literal (text : Str)

structure PlanKeyRule where
  scope : PlanScope
  toks : List PlanToken

inductive PlanRespond where
  | path (p : Str)
  | terms (ts : List ((Str × PlanMatcher) × Bool))

def PlanRespond.compile (E : Engines) : PlanRespond → RespondWhen
  | .path p => .path p
  | .terms ts => .terms (compileTerms E ts)

structure PlanRedirect where
  regex : Option Str
  scope : PlanScope
  status : Nat
  target : Str
  noStore : Bool

def PlanRedirect.compile (E : Engines) (r : PlanRedirect) : TargetRule where
  re := r.regex.map E.find
  sc := compileScope E r.scope
  status := r.status
  target := r.target
  noStore := r.noStore

inductive PlanSelectorKind where
  | statusIn (codes : List Nat)
  | statusNotIn (codes : List Nat)
  | scope (s : PlanScope)
  | default

structure PlanSelector where
  kind : PlanSelectorKind
  respHeader : Option (Leaf Str)

def PlanSelector.compile (E : Engines) (s : PlanSelector) : Selector where
  kind := match s.kind with
    | .statusIn codes => .statusIn codes
    | .statusNotIn codes => .statusNotIn codes
    | .scope s => .scope (compileScope E s)
    | .default => .default
  respHeader := s.respHeader.map (Leaf.compile E)

structure PlanTTL where
  sel : PlanSelector
  ttl : Duration
  grace : Duration
  maxStale : Duration
  hitForMiss : Option Duration
  fromHeader : Option Str
  graceFromHeader : Option Str
  maxStaleFromHeader : Option Str

def PlanTTL.compile (E : Engines) (r : PlanTTL) : TTLRule :=
  { r with sel := r.sel.compile E }

inductive EdgeTier where
  | skip
  | local
  | distribute
deriving DecidableEq, Repr

/-- A rule of the device classifier: one of the substrings, and none of the others. -/
structure DeviceRule where
  cls : Str
  substrings : List Str
  exclude : List Str

/-- The device classifier: its rules, the class of other user agents, and classes that stand for
others. -/
structure DeviceClassifier where
  rules : List DeviceRule
  default : Str
  folds : List (Str × Str)

/-! ## Plans -/

structure Plan where
  matchers : FinMap Str PlanMatcher := ∅
  classifiers : FinMap Str PlanClassifier := ∅
  normalizers : FinMap Str Normalizer := ∅
  addresses : List Str := []
  tenant : Str := []
  tenantResolver : Option TenantResolver := none
  device : Option DeviceClassifier := none
  gate : SecurityGate := ⟨[], [], false, []⟩
  respond : List (PlanRespond × Synthetic) := []
  onError : List (PlanScope × OnError) := []
  redirect : List PlanRedirect := []
  /-- the purge guards, and the pattern each yields -/
  purge : List (PlanScope × (Request → Str)) := []
  route : List (PlanScope × Str) := []
  defaultUpstream : Str := []
  pass : List PlanScope := []
  upgrade : List PlanScope := []
  credentialed : List PlanScope := []
  keyRules : List PlanKeyRule := []
  stickyCookie : Str := []
  ttl : List PlanTTL := []
  storage : List (PlanSelector × Tier) := []
  tierPolicies : List (PlanScope × EdgeTier) := []
  defaultTier : EdgeTier := .local
  cacheUnsafe : Bool := false
  ignoreClientRevalidation : Bool := false
  cookieAllow : Option (List Str) := none
  stripCookies : List PlanScope := []
  rewrite : List PlanScope := []
  encode : Bool := false

namespace Plan

variable (p : Plan) (E : Engines)

def compileToken : PlanToken → KeyToken
  | .method => .method
  | .host => .host
  | .path => .path
  | .url => .url
  | .query => .query
  | .queryAllow names => .queryAllow (nameGlobSet names)
  | .queryStrip names => .queryStrip (nameGlobSet names)
  | .header name => .header name
  | .cookie name => .cookie name
  | .sticky => .sticky
  | .device => .device
  | .geo => .geo
  | .geoContinent => .geoContinent
  | .geoRegion => .geoRegion
  | .normalize ref => .normalize ((p.normalizers.lookup ref).getD ⟨.header [], ∅, []⟩)
  | .classify ref => .classify (((p.classifiers.lookup ref).getD {}).compile E)
  | .tenant =>
    match p.tenantResolver with
    | some t => .tenantFrom t
    | none => .tenant p.tenant
  | .literal text => .literal text

def compileKeyRule (r : PlanKeyRule) : KeyRule where
  sel := ⟨match r.scope with
    | none => .default
    | some _ => .scope (compileScope E r.scope), none⟩
  toks := r.toks.map (p.compileToken E)

def classifierTable : FinMap Str Classifier := p.classifiers.mapVal fun _ cl => cl.compile E

def pipeline (tls : Bool) : Pipeline where
  gate := p.gate
  respondRules := p.respond.map fun r => (r.1.compile E, r.2)
  onErrorRules := p.onError.map fun r => (compileScope E r.1, r.2)
  redirectRules := p.redirect.map fun r =>
    (r.compile E).eval p.addresses (p.classifierTable E) tls
  purgeRules := p.purge.map fun r => (compileScope E r.1, r.2)
  routeRules := p.route.map fun r => (compileScope E r.1, r.2)
  defaultUpstream := p.defaultUpstream
  passRules := p.pass.map (compileScope E)
  upgradeRules := p.upgrade.map (compileScope E)
  credentialedRules := p.credentialed.map (compileScope E)
  keyRules := p.keyRules.map (p.compileKeyRule E)
  stickyCookie := p.stickyCookie
  ttlRules := p.ttl.map (PlanTTL.compile E)
  storageRules := p.storage.map fun r => (r.1.compile E, r.2)
  cacheUnsafe := p.cacheUnsafe
  ignoreClientRevalidation := p.ignoreClientRevalidation
  cookieAllow := p.cookieAllow.map nameGlobSet
  stripRules := p.stripCookies.map (compileScope E)

end Plan

end Cadish.Edge
