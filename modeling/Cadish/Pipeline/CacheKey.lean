import Mathlib.Data.List.Sort
import Cadish.Pipeline.Matcher

/-!
# Cache keys

The key of a request is the renderings of the tokens of its recipe, joined by the unit separator. A
value that comes from the path, a header or a cookie is written without that byte; the other
renderings are written as they are.
-/

namespace Cadish

/-- A `classify` table: the first row whose matchers all match gives the value. Its inputs may
be declared: `derivesFrom` names the cookies it consumes, and `derivesForward` those of them
that are forwarded all the same. -/
structure Classifier where
  rows : List (List Matcher × Str)
  default : Str
  derivesFrom : List Str
  derivesForward : List Str

def Classifier.resolve (cl : Classifier) (c : MatchContext) : Str :=
  resolveRows c cl.default cl.rows

inductive NormSource where
  | header (name : Str)
  | cookie (name : Str)
  | query (name : Str)

/-- A `normalize` table: a request value mapped to a bucket. -/
structure Normalizer where
  source : NormSource
  mapping : FinMap Str Str
  default : Str

variable (n : Normalizer) (s : Str) (c : MatchContext) (req : Request) (stickyCookie : Str)
  (toks : List KeyToken)

def Normalizer.sourceValue : Str :=
  match n.source with
  | .header name => req.header.combined name
  | .cookie name => req.cookie name
  | .query name => ((req.query.lookup name).getD []).headD []

def Normalizer.resolve : Str :=
  (n.mapping.lookup (n.sourceValue req)).getD n.default

/-- A request-derived tenant: patterns over the host or a header. -/
structure TenantResolver where
  fromHeader : Option Str
  rules : List (Str × Str)
  default : Str

def tenantRuleMatches (pattern v : Str) : Bool :=
  if Str.hasPrefix pattern (lit "*.") then
    v == pattern.drop 2 || Str.hasSuffix v (pattern.drop 1)
  else v == pattern

def TenantResolver.resolve (t : TenantResolver) (req : Request) : Str :=
  let v := match t.fromHeader with
    | some name => Str.toLower (req.header.combined name)
    | none => req.normHost
  match t.rules.find? fun r => tenantRuleMatches r.1 v with
  | some r => r.2
  | none => t.default

inductive KeyToken where
  | method
  | host
  | path
  | url
  | query
  | queryAllow (names : Pattern)
  | queryStrip (names : Pattern)
  | header (name : Str)
  | cookie (name : Str)
  | sticky
  | device
  | geo
  | geoContinent
  | geoRegion
  | normalize (n : Normalizer)
  | classify (cl : Classifier)
  | tenant (name : Str)
  | tenantFrom (t : TenantResolver)
  | literal (text : Str)

/-! ## Rendering -/

/-- `keyTokenSep`: the unit separator. -/
def keyTokenSep : UInt8 := 0x1f

/-- `writeKeyValue`: a value without the separator byte. -/
def keyValue : Str := s.filter (· ≠ keyTokenSep)

def hexDigit (n : UInt8) : UInt8 := if n < 10 then n + 48 else n + 55

def queryEscape : Str :=
  s.flatMap fun b =>
    if isUnreserved b then [b]
    else if b = 0x20 then lit "+"
    else [Str.byte '%', hexDigit (b / 16), hexDigit (b % 16)]
where
  isUnreserved (b : UInt8) : Bool :=
    (0x30 ≤ b && b ≤ 0x39) || (0x41 ≤ b && b ≤ 0x5a) || (0x61 ≤ b && b ≤ 0x7a) ||
      (lit "-_.~").elem b

/-- `writeCanonicalQuery`: the parameters that pass the test, sorted and escaped. -/
def canonicalQuery (lead : Str) (keep : Str → Bool) : Str :=
  let keys := (req.query.keys.filter keep).insertionSort fun a b => a ≤ b
  let pairs := keys.flatMap fun k =>
    (((req.query.lookup k).getD []).insertionSort fun a b => a ≤ b).map fun v =>
      queryEscape k ++ lit "=" ++ queryEscape v
  if pairs = [] then [] else lead ++ Str.join (lit "&") pairs

def writeToken : KeyToken → Str
  | .method => c.req.effMethod
  | .host => c.req.normHost
  | .path => keyValue c.req.path
  | .url => keyValue c.req.path ++ canonicalQuery c.req (lit "?") fun _ => true
  | .query => canonicalQuery c.req [] fun _ => true
  | .queryAllow names => canonicalQuery c.req [] names
  | .queryStrip names => canonicalQuery c.req [] fun k => !names k
  | .header name => keyValue (c.req.header.combined name)
  | .cookie name => keyValue (c.req.cookie name)
  | .sticky =>
    if stickyCookie ≠ [] ∧ c.req.cookie stickyCookie ≠ [] then
      keyValue (c.req.cookie stickyCookie)
    else c.req.clientIP
  | .device => c.req.device
  | .geo => c.req.geo
  | .geoContinent => c.req.geoContinent
  | .geoRegion => c.req.geoRegion
  | .normalize n => n.resolve c.req
  | .classify cl => cl.resolve c
  | .tenant name => name
  | .tenantFrom t => t.resolve c.req
  | .literal text => text

def defaultKeyTokens : List KeyToken := [.method, .host, .path]

def recipeTokens : List KeyToken :=
  if toks.isEmpty then defaultKeyTokens else toks

def buildKey : Str :=
  Str.join [keyTokenSep] ((recipeTokens toks).map (writeToken c stickyCookie))

/-! ## Selectors -/

inductive SelectorKind where
  | statusIn (codes : List Nat)
  | statusNotIn (codes : List Nat)
  | scope (s : Scope)
  | default

structure Selector where
  kind : SelectorKind
  respHeader : Option Matcher

def Selector.matches (s : Selector) (c : MatchContext) (status : Nat) : Bool :=
  (match s.respHeader with
    | some m => m.matches c
    | none => true) &&
  match s.kind with
    | .statusIn codes => codes.elem status
    | .statusNotIn codes => !codes.elem status
    | .scope sc => c.scopeMatches sc
    | .default => true

structure KeyRule where
  sel : Selector
  toks : List KeyToken

end Cadish
