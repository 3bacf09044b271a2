import Cadish.Pipeline.Request

/-!
# Matchers

A *scope* is a disjunction of matchers, a *conjunction* may negate each, and a classifier is a
first-match table of conjunctions. A compiled pattern set enters a matcher as the set of strings it
accepts. The memo of the evaluation context is left out.
-/

namespace Cadish

/-- A compiled pattern set: the strings it accepts. -/
abbrev Pattern := Str → Bool

inductive GeoGranularity where
  | country
  | continent
  | region
deriving DecidableEq, Repr

inductive Matcher where
  | path (paths : Pattern)
  | pathRegex (re : Pattern)
  | host (hosts : Pattern)
  | hostRegex (re : Pattern)
  | header (name : Str) (values : List Str)
  | headerPresent (name : Str)
  | headerRegex (name : Str) (re : Pattern)
  | method (methods : List Str)
  | upstream (upstreams : List Str)
  | contentType (types : List Str)
  | respHeader (name : Str) (values : Option Pattern)
  | cookie (name : Str) (values : List Str)
  | cookieGlob (namePrefix : Str)
  | setCookie (names : List Str)
  | classify (rows : List (List Matcher × Str)) (default value : Str) (negate : Bool)
  | geo (gran : GeoGranularity) (values : List Str)
  | queryPresent (names : Pattern) (nonEmpty : Option Pattern)
  | query (name : Str) (values : List Str)
  | ip (prefixes : Pattern)
  | cookieJSON (name : Str) (test : Pattern)
  | headerJSON (name : Str) (test : Pattern)
  | all (terms : List (Matcher × Bool))
  | upstreamHealthy (pools : List Str)

structure MatchContext where
  req : Request
  upstream : Str
  respHeader : Option Header

/-! ## Set-Cookie lines -/

def validCookieValueByte (b : UInt8) : Bool :=
  0x20 ≤ b && b < 0x7f && b != Str.byte '"' && b != Str.byte ';' && b != Str.byte '\\'

/-- The name of the cookie a Set-Cookie line sets, if `net/http` accepts the line. -/
def setCookieName (line : Str) : Option Str :=
  let pair := Str.trimString ((Str.split (Str.byte ';') (Str.trimString line)).headD [])
  match Str.cut (Str.byte '=') pair with
  | none => none
  | some (name, value) =>
    let name := Str.trimString name
    if name ≠ [] ∧ name.all Header.isTokenByte ∧ (Str.unquote value).all validCookieValueByte
    then some name else none

def setCookieNames (h : Header) : List Str :=
  ((h.lookup (lit "Set-Cookie")).getD []).filterMap setCookieName

/-! ## Evaluation -/

mutual

def Matcher.matches (c : MatchContext) : Matcher → Bool
  | .path paths => paths c.req.path
  | .pathRegex re => re c.req.path
  | .host hosts => hosts c.req.host
  | .hostRegex re => re c.req.normHost
  | .header name values =>
    if values.isEmpty then c.req.header.present name
    else (c.req.header.values name).any fun v => values.elem v
  | .headerPresent name => c.req.header.present name
  | .headerRegex name re => (c.req.header.values name).any re
  | .method methods => methods.elem c.req.effMethod
  | .upstream upstreams => upstreams.elem c.upstream
  | .contentType types =>
    match c.respHeader with
    | none => false
    | some h =>
      let ct := (h.get (lit "Content-Type")).toLower
      !ct.isEmpty && types.any fun want => ct.contains want
  | .respHeader name values =>
    match c.respHeader with
    | none => false
    | some h =>
      match values with
      | none => !(h.values name).isEmpty
      | some accepted => (h.values name).any accepted
  | .cookie name values =>
    if values.isEmpty then c.req.cookieNames.elem name
    else values.elem (c.req.cookie name)
  | .cookieGlob namePrefix => c.req.cookieNames.any fun n => n.hasPrefix namePrefix
  | .setCookie names =>
    match c.respHeader with
    | none => false
    | some h =>
      if names.isEmpty then !(setCookieNames h).isEmpty
      else (setCookieNames h).any fun n => names.elem n
  | .classify rows default value negate =>
    let eq := resolveRows c default rows == value
    if negate then !eq else eq
  | .geo gran values =>
    let got := match gran with
      | .country => c.req.geo
      | .continent => c.req.geoContinent
      | .region => c.req.geoRegion
    !got.isEmpty && values.elem got
  | .queryPresent names nonEmpty =>
    c.req.query.entries.any fun q =>
      names q.1 && match nonEmpty with
        | some flagged => if flagged q.1 then q.2.any fun v => !v.isEmpty else true
        | none => true
  | .query name values =>
    match c.req.query.lookup name with
    | none => false
    | some vals => values.isEmpty || vals.any fun v => values.elem v
  | .ip prefixes =>
    match c.req.realClientIP with
    | none => false
    | some ip => prefixes ip
  | .cookieJSON name test =>
    match (lenientCookies c.req.header).find? (·.name = name) with
    | none => false
    | some ck => test ck.value
  | .headerJSON name test => (c.req.header.values name).any test
  | .all terms => respondTermsMatch c terms
  | .upstreamHealthy pools =>
    match c.req.poolHealthy with
    | none => false
    | some healthy => pools.any healthy

/-- `respondTermsMatch`: every term of a conjunction matches, up to its negation. -/
def respondTermsMatch (c : MatchContext) : List (Matcher × Bool) → Bool
  | [] => true
  | (m, negate) :: terms => if m.matches c = negate then false else respondTermsMatch c terms

def conjMatches (c : MatchContext) : List Matcher → Bool
  | [] => true
  | m :: conj => if m.matches c then conjMatches c conj else false

def resolveRows (c : MatchContext) (default : Str) : List (List Matcher × Str) → Str
  | [] => default
  | (conj, value) :: rows => if conjMatches c conj then value else resolveRows c default rows

end

abbrev Scope := Option (List Matcher)

def MatchContext.scopeMatches (c : MatchContext) : Scope → Bool
  | none => true
  | some ms => ms.any fun m => m.matches c

end Cadish
