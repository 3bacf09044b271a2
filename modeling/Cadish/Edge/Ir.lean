import Cadish.Controller.Names
import Cadish.Edge.Plan
import Cadish.Edge.Regex

/-!
# The projection of a plan

`project` writes the plan of a site down for the worker, with names for matchers and tables. What
the worker cannot evaluate fails closed: a rule with such a scope is left out, and where that could
store what the server passes, the worker passes everything (`failOpenPass`). The secret of a purge
guard does not leave the server. `coverage` counts what was left out.
-/

namespace Cadish.Edge

/-! ## The representation -/

/-- A regex for the worker: pattern and flags, or `none` where it does not translate. -/
abbrev IrRegex := Option (Str × Str)

inductive IrMatcher where
  | leaf (l : Leaf IrRegex)
  | classify (token value : Str) (negate : Bool)
  | all (subs : List (Str × Bool))

structure IrScope where
  always : Bool := false
  names : List Str := []
  inline : List IrMatcher := []

structure IrClassifier where
  rows : List (List Str × Str)
  default : Str
  derivesFrom : List Str
  derivesForward : List Str

inductive IrToken where
  | plain (t : PlanToken)
  | sticky (cookie : Str)
  | tenant (name : Str)

/-- A `redirect` rule. An empty regex is none. -/
structure IrRedirect where
  regex : Str
  regexFlags : Str
  scope : Option IrScope
  status : Nat
  target : Str
  noStore : Bool

inductive IrSelectorKind where
  | statusIn (codes : List Nat)
  | statusNotIn (codes : List Nat)
  | scope (s : IrScope)
  | default

structure IrSelector where
  kind : IrSelectorKind
  respHeader : Option (Leaf IrRegex)

structure IrTTL where
  sel : IrSelector
  ttl : Duration
  grace : Duration
  maxStale : Duration
  hitForMiss : Option Duration
  fromHeader : Option Str
  graceFromHeader : Option Str
  maxStaleFromHeader : Option Str

structure Ir where
  hosts : List Str
  redirectHosts : List Str
  canonicalHost : Str
  upstreamTo : Str
  matchers : FinMap Str IrMatcher
  classifiers : FinMap Str IrClassifier
  normalizers : FinMap Str Normalizer
  tenant : Option TenantResolver
  device : Option DeviceClassifier
  pass : List IrScope
  respond : List (Str × Synthetic)
  redirect : List IrRedirect
  route : List (IrScope × Str)
  keyTokens : List IrToken
  recipes : List (IrScope × List IrToken)
  cacheCredentialed : List IrScope
  ttl : List IrTTL
  tierPolicies : List (IrScope × EdgeTier)
  defaultTier : EdgeTier
  stripCookies : List IrScope
  cacheUnsafe : Bool
  cookieAllow : Option (List Str)

/-! ## Matchers and scopes -/

def projectLeaf : Leaf Str → Leaf IrRegex
  | .path patterns => .path patterns
  | .pathRegex src => .pathRegex (splitRE2Flags src)
  | .host patterns => .host patterns
  | .hostRegex src => .hostRegex (splitRE2Flags src)
  | .header name values => .header name values
  | .headerRegex name src => .headerRegex name (splitRE2Flags src)
  | .method methods => .method methods
  | .upstream upstreams => .upstream upstreams
  | .contentType types => .contentType types
  | .respHeader name values => .respHeader name values
  | .cookie name values => .cookie name values
  | .cookieGlob namePrefix => .cookieGlob namePrefix
  | .cookieJSON name jsonPath values => .cookieJSON name jsonPath values
  | .headerJSON name jsonPath values => .headerJSON name jsonPath values
  | .setCookie names => .setCookie names
  | .geo gran values => .geo gran values
  | .queryPresent names nonEmpty => .queryPresent names nonEmpty
  | .query name values => .query name values
  | .ip prefixes => .ip prefixes
  | .upstreamHealthy pools => .upstreamHealthy pools

def projectMatcher : PlanMatcher → IrMatcher
  | .leaf l => .leaf (projectLeaf l)
  | .classify token _ _ value negate => .classify token value negate
  | .all terms => .all (terms.map fun t => (t.1.1, t.2))

/-- `scopeView` and `projectScope`: the names are sorted, and the others stand behind them. -/
def projectScope : PlanScope → IrScope
  | none => { always := true }
  | some ms =>
    { names := ((ms.filter fun m => m.1 ≠ []).map (·.1)).insertionSort fun a b => a ≤ b
      inline := (ms.filter fun m => m.1 = []).map fun m => projectMatcher m.2 }

def redactMatcher : IrMatcher → IrMatcher
  | .leaf (.header name _) => .leaf (.header name [])
  | .leaf (.cookie name _) => .leaf (.cookie name [])
  | .leaf (.setCookie _) => .leaf (.setCookie [])
  | m => m

def Leaf.failsClosed : Leaf IrRegex → Bool
  | .pathRegex re | .hostRegex re | .headerRegex _ re => re.isNone
  | .ip _ | .upstreamHealthy _ => true
  | _ => false

/-! ## Tables -/

variable (token : Str) (row : Nat) (rows : List (List (Str × PlanMatcher) × Str))

def syntheticName (idx : Nat) : Str :=
  lit "__edge.classify." ++ token ++ lit "." ++ Controller.itoa row ++ lit "." ++ Controller.itoa idx

def rowName (m : (Str × PlanMatcher) × Nat) : Str :=
  if m.1.1 ≠ [] then m.1.1 else syntheticName token row m.2

def rowsView : List (List Str × Str) :=
  rows.zipIdx.map fun r => (r.1.1.zipIdx.map (rowName token r.2), r.1.2)

/-- The inline matchers of a table, by the names made up for them. -/
def synthetics : List (Str × IrMatcher) :=
  rows.zipIdx.flatMap fun r => (r.1.1.zipIdx.filter fun m => m.1.1 = []).map fun m =>
    (syntheticName token r.2 m.2, projectMatcher m.1.2)

def projectClassifier (cl : PlanClassifier) : IrClassifier where
  rows := rowsView token cl.rows
  default := cl.default
  derivesFrom := cl.derivesFrom
  derivesForward := cl.derivesForward

namespace Plan

variable (p : Plan)

def guardNames : List Str := p.purge.flatMap fun r => (projectScope r.1).names

/-- The matchers by name, those of the rows that have none included. -/
def irMatchers : FinMap Str IrMatcher :=
  (p.classifiers.entries.flatMap fun e => synthetics e.1 e.2.rows).foldl
    (fun ms s => ms.insert s.1 s.2) (p.matchers.mapVal fun _ m => projectMatcher m)

def irClassifiers : FinMap Str IrClassifier := p.classifiers.mapVal projectClassifier

/-! ## What fails closed -/

variable (fc : List Str) (r : PlanRedirect) (s : PlanSelector)

/-- `classifierRowsFailClosed`: a row has a matcher that the worker cannot evaluate, or one of a table
that is known to fail. -/
def rowsFailClosed (cl : IrClassifier) : Bool :=
  cl.rows.any fun row => row.1.any fun id =>
    match p.irMatchers.lookup id with
    | some (.leaf l) => l.failsClosed
    | some (.classify token _ _) => fc.elem token
    | _ => false

def failClosedRound : List Str :=
  (p.irClassifiers.entries.filter fun e => fc.elem e.1 || p.rowsFailClosed fc e.2).map (·.1)

/-- `classifiersFailClosed`: rounds until nothing changes. -/
def clsFC : List Str := p.failClosedRound^[p.irClassifiers.entries.length] []

def simpleFailsClosed : IrMatcher → Bool
  | .leaf l => l.failsClosed
  | .classify token _ _ => p.clsFC.elem token
  | .all _ => false

/-- `matcherFailsClosed`: a conjunction fails with one of its terms, and holds no other conjunction. -/
def matcherFailsClosed : IrMatcher → Bool
  | .all subs => subs.any fun s => (p.irMatchers.lookup s.1).any p.simpleFailsClosed
  | m => p.simpleFailsClosed m

def scopeFailsClosed (s : IrScope) : Bool :=
  !s.always && ((s.names.any fun n => (p.irMatchers.lookup n).any p.matcherFailsClosed) ||
    s.inline.any p.matcherFailsClosed)

def failsClosed (s : PlanScope) : Bool := p.scopeFailsClosed (projectScope s)

def tokensFailClosed (toks : List PlanToken) : Bool :=
  toks.any fun
    | .classify ref => p.clsFC.elem ref
    | _ => false

def selectorFailsClosed : Bool :=
  match s.kind with
  | .scope sc => p.failsClosed sc
  | _ => false

/-! ## Recipes and rules -/

def projectToken : PlanToken → IrToken
  | .sticky => .sticky p.stickyCookie
  | .tenant => .tenant p.tenant
  | t => .plain t

/-- `EdgeKeyTokens`: the recipe without a scope, or the built-in one. -/
def edgeKeyTokens : List PlanToken :=
  match p.keyRules.find? fun r => r.scope.isNone with
  | some r => r.toks
  | none => [.method, .host, .path]

def recipeFailsClosed (r : PlanKeyRule) : Bool := p.failsClosed r.scope || p.tokensFailClosed r.toks

/-- A redirect that the worker cannot evaluate: its scope fails closed, or its regex does not
translate. -/
def redirectDelegated : Bool :=
  (r.scope.isSome && p.failsClosed r.scope) || r.regex.any fun src => (splitRE2Flags src).isNone

def projectRedirect : IrRedirect where
  regex := ((r.regex.bind splitRE2Flags).map (·.1)).getD []
  regexFlags := ((r.regex.bind splitRE2Flags).map (·.2)).getD []
  scope := r.scope.map fun ms => projectScope (some ms)
  status := r.status
  target := r.target
  noStore := r.noStore

def projectSelector : IrSelector where
  kind := match s.kind with
    | .statusIn codes => .statusIn codes
    | .statusNotIn codes => .statusNotIn codes
    | .scope sc => .scope (projectScope sc)
    | .default => .default
  respHeader := s.respHeader.map projectLeaf

def projectTTL (r : PlanTTL) : IrTTL := { r with sel := projectSelector r.sel }

/-- Something that decides about storage fails closed: the worker passes everything. -/
def failOpenPass : Bool :=
  p.pass.any p.failsClosed || p.credentialed.any p.failsClosed ||
    p.route.any (fun r => p.failsClosed r.1) || p.tokensFailClosed p.edgeKeyTokens ||
    p.keyRules.any p.recipeFailsClosed || p.ttl.any (fun r => p.selectorFailsClosed r.sel) ||
    p.storage.any (fun r => p.selectorFailsClosed r.1) ||
    p.tierPolicies.any (fun r => p.failsClosed r.1) || p.upgrade.any p.failsClosed

def native (scopes : List PlanScope) : List IrScope :=
  (scopes.filter fun s => !p.failsClosed s).map projectScope

/-- **`Project`.** -/
def project : Ir where
  hosts := p.addresses
  redirectHosts := trustedHosts p.addresses
  canonicalHost := Cadish.canonicalHost p.addresses
  upstreamTo := p.defaultUpstream
  matchers := p.irMatchers.mapVal fun name m => if p.guardNames.elem name then redactMatcher m else m
  classifiers := p.irClassifiers
  normalizers := p.normalizers
  tenant := p.tenantResolver
  device := p.device
  pass := p.native p.pass ++ p.native p.upgrade ++ if p.failOpenPass then [{ always := true }] else []
  respond := p.respond.filterMap fun r =>
    match r.1 with
    | .path path => some (path, r.2)
    | .terms _ => none
  redirect := (p.redirect.takeWhile fun r => !p.redirectDelegated r).map projectRedirect
  route := (p.route.filter fun r => !p.failsClosed r.1).map fun r => (projectScope r.1, r.2)
  keyTokens := if p.tokensFailClosed p.edgeKeyTokens then [] else p.edgeKeyTokens.map p.projectToken
  recipes := (p.keyRules.filter fun r => !p.recipeFailsClosed r).map fun r =>
    (projectScope r.scope, r.toks.map p.projectToken)
  cacheCredentialed := p.native p.credentialed
  ttl := (p.ttl.filter fun r => !p.selectorFailsClosed r.sel).map projectTTL
  tierPolicies := (p.tierPolicies.filter fun r => !p.failsClosed r.1).map fun r =>
    (projectScope r.1, r.2)
  defaultTier := p.defaultTier
  stripCookies := p.stripCookies.map projectScope
  cacheUnsafe := p.cacheUnsafe
  cookieAllow := p.cookieAllow

/-! ## Coverage -/

structure Coverage where
  delegated : Nat
  /-- what made the worker pass everything, or leave redirects to the server -/
  forcedPass : Nat
deriving DecidableEq, Repr

def coverage : Coverage where
  delegated :=
    p.irMatchers.count (fun _ m => match m with
      | .leaf l => l.failsClosed
      | _ => false) +
    p.respond.countP (fun r => match r.1 with
      | .path _ => false
      | .terms _ => true) +
    (p.redirect.dropWhile fun r => !p.redirectDelegated r).length +
    (if p.gate.allowRules ≠ [] ∨ p.gate.denyRules ≠ [] ∨ p.gate.rateLimitRules ≠ [] then 1 else 0) +
    p.purge.length + p.rewrite.length + (if p.encode then 1 else 0) + p.upgrade.length
  forcedPass :=
    p.pass.countP p.failsClosed + p.credentialed.countP p.failsClosed +
    (if p.redirect.any p.redirectDelegated then 1 else 0) +
    p.route.countP (fun r => p.failsClosed r.1) +
    (if p.tokensFailClosed p.edgeKeyTokens then 1 else 0) + p.keyRules.countP p.recipeFailsClosed +
    p.ttl.countP (fun r => p.selectorFailsClosed r.sel) +
    p.storage.countP (fun r => p.selectorFailsClosed r.1) +
    p.tierPolicies.countP (fun r => p.failsClosed r.1) + p.upgrade.countP p.failsClosed

end Plan

end Cadish.Edge
