import Cadish.Edge.Ir
import Cadish.Edge.Request

/-!
# The interpreter of the worker

The worker looks matchers and tables up by name; `depth` is the stack that is left. A step that
throws has no result: the stack is used up, or a regex is not one for `RegExp`. The edits of the
request header, which decide nothing, are left out.
-/

namespace Cadish.Edge

open Str

structure Js where
  /-- `new RegExp(src, flags)`, and its `exec`; `none` where the constructor throws -/
  exec : Str → Str → Option PathRegex
  /-- `jsonFieldMatch` for a value that is present, by the path and the values of the test -/
  json : Str → List Str → Pattern

structure Ctx where
  req : IReq
  upstream : Str
  respHeader : Option Header

/-! ## Texts -/

def matchGlob (pattern s : Str) : Bool :=
  let trailingStar := hasSuffix pattern [star]
  let walk (parts : List Str) (s : Str) : Bool :=
    let anchored := !trailingStar && parts ≠ []
    match findParts (if anchored then parts.dropLast else parts) s with
    | none => false
    | some t => if anchored then hasSuffix t (parts.getLastD []) else true
  match (split star pattern).filter fun p => p ≠ [] with
  | [] => true
  | first :: parts =>
    if hasPrefix pattern [star] then walk (first :: parts) s
    else if hasPrefix s first then walk parts (s.drop first.length)
    else false

def matchPathPattern (pattern path : Str) : Bool :=
  if pattern = [star] then true
  else if star ∉ pattern then path == pattern
  else matchGlob pattern path

def matchHostPattern (pattern host : Str) : Bool :=
  let pattern := toLower pattern
  if hasPrefix pattern (lit "*.") then hasSuffix host (pattern.drop 1) else host == pattern

def nameGlobMatch (patterns : List Str) (name : Str) : Bool :=
  patterns.any fun p =>
    if p = [star] then true else if star ∉ p then name == p else matchGlob p name

/-! ## Fields of a request -/

namespace IReq

variable (req : IReq)

def reqMethod : Str := toUpper (if req.method = [] then lit "GET" else req.method)

variable (name : Str)

def headerValues : List Str := (req.header.lookup (canonicalHeaderKey name)).getD []

def headerPresent : Bool := (req.header.lookup (canonicalHeaderKey name)).isSome

def headerCombined : Str :=
  match req.headerValues name with
  | [] => []
  | [v] => v
  | vs => join (lit ", ") vs

def queryGet : Str := ((req.query.lookup name).getD []).headD []

def parseCookies : List CookieKV :=
  match (req.header.lookup (canonicalHeaderKey (lit "Cookie"))).getD [] with
  | [] => []
  | lines => parseLenientCookies (join (lit "; ") lines)

def cookieValue : Str :=
  match req.parseCookies.find? (·.name = name) with
  | some c => c.value
  | none => []

end IReq

/-- `responseCookieNames`: what stands before the first `=` of a Set-Cookie line. -/
def responseCookieNames (h : Header) : List Str :=
  ((h.lookup (lit "Set-Cookie")).getD []).filterMap fun line =>
    match cut (byte '=') line with
    | none => none
    | some (name, _) => if trimSpace name = [] then none else some (trimSpace name)

def respHeaderValues (h : Header) (name : Str) : List Str :=
  (h.lookup (canonicalHeaderKey name)).getD []

/-! ## Matchers -/

section Matching

variable (js : Js) (ir : Ir) (c : Ctx)

def matchLeaf : Leaf IrRegex → Option Bool
  | .ip _ => some false
  | .upstreamHealthy _ => some false
  | .path patterns => some (patterns.any fun p => matchPathPattern p c.req.path)
  | .pathRegex none => some false
  | .pathRegex (some (src, flags)) => (js.exec src flags).map fun re => (re c.req.path).isSome
  | .host patterns => some (patterns.any fun p => matchHostPattern p (normalizeHost c.req.host))
  | .hostRegex none => some false
  | .hostRegex (some (src, flags)) =>
    (js.exec src flags).map fun re => (re (normalizeHost c.req.host)).isSome
  | .header name values =>
    some (if values = [] then c.req.headerPresent name
      else (c.req.headerValues name).any fun v => values.elem v)
  | .headerRegex _ none => some false
  | .headerRegex name (some (src, flags)) =>
    (js.exec src flags).map fun re => (c.req.headerValues name).any fun v => (re v).isSome
  | .method methods => some (methods.elem c.req.reqMethod)
  | .upstream upstreams => some (upstreams.elem c.upstream)
  | .contentType types =>
    some (match c.respHeader with
      | none => false
      | some h =>
        let ct := toLower (h.get (lit "Content-Type"))
        if ct = [] then false else types.any fun want => ct.contains want)
  | .respHeader name values =>
    some (match c.respHeader with
      | none => false
      | some h =>
        if values = [] then !(respHeaderValues h name).isEmpty
        else (respHeaderValues h name).any fun v => nameGlobMatch values v)
  | .cookie name values =>
    some (if values = [] then c.req.parseCookies.any (·.name = name)
      else values.elem (c.req.cookieValue name))
  | .cookieGlob namePrefix => some (c.req.parseCookies.any fun ck => hasPrefix ck.name namePrefix)
  | .cookieJSON name jsonPath values =>
    some (match c.req.parseCookies.find? (·.name = name) with
      | none => false
      | some ck => js.json jsonPath values ck.value)
  | .headerJSON name jsonPath values =>
    some ((c.req.headerValues name).any fun raw => js.json jsonPath values raw)
  | .setCookie names =>
    some (match c.respHeader with
      | none => false
      | some h =>
        if names = [] then !(responseCookieNames h).isEmpty
        else (responseCookieNames h).any fun n => names.elem n)
  | .geo gran values =>
    let got := match gran with
      | .continent => c.req.geoContinent
      | .region => c.req.geoRegion
      | .country => c.req.geo
    some (if got = [] then false else values.elem got)
  | .queryPresent names nonEmpty =>
    some (c.req.query.entries.any fun q =>
      nameGlobMatch names q.1 &&
        (if nonEmpty ≠ [] ∧ nameGlobMatch nonEmpty q.1 then q.2.any fun v => v ≠ [] else true))
  | .query name values =>
    some (match c.req.query.lookup name with
      | none => false
      | some vals => if values = [] then true else vals.any fun v => values.elem v)

/-- The matchers of a row, by name, one after the other. -/
def conjHolds (eval : IrMatcher → Option Bool) : List Str → Option Bool
  | [] => some true
  | name :: conj =>
    match ir.matchers.lookup name with
    | none => some false
    | some m =>
      match eval m with
      | none => none
      | some got => if got then conjHolds eval conj else some false

def rowsResolve (eval : IrMatcher → Option Bool) (default : Str) : List (List Str × Str) → Option Str
  | [] => some default
  | row :: rows =>
    match conjHolds ir eval row.1 with
    | none => none
    | some got => if got then some row.2 else rowsResolve eval default rows

def classifyResolve (eval : IrMatcher → Option Bool) (name : Str) : Option Str :=
  match ir.classifiers.lookup name with
  | none => some []
  | some cl => rowsResolve ir eval cl.default cl.rows

def termsHold (eval : IrMatcher → Option Bool) : List (Str × Bool) → Option Bool
  | [] => some true
  | (ref, negate) :: subs =>
    match (match ir.matchers.lookup ref with
      | none => some false
      | some m => eval m) with
    | none => none
    | some got => if got = negate then some false else termsHold eval subs

def matchOne : Nat → IrMatcher → Option Bool
  | 0, _ => none
  | _ + 1, .leaf l => matchLeaf js c l
  | depth + 1, .classify token value negate =>
    (classifyResolve ir (matchOne depth) token).map fun got => (got == value) != negate
  | depth + 1, .all subs => termsHold ir (matchOne depth) subs

/-- The named matchers of a scope; a name without a matcher is passed over. -/
def anyName (eval : IrMatcher → Option Bool) : List Str → Option Bool
  | [] => some false
  | name :: names =>
    match ir.matchers.lookup name with
    | none => anyName eval names
    | some m =>
      match eval m with
      | none => none
      | some got => if got then some true else anyName eval names

def anyInline (eval : IrMatcher → Option Bool) : List IrMatcher → Option Bool
  | [] => some false
  | m :: ms =>
    match eval m with
    | none => none
    | some got => if got then some true else anyInline eval ms

def scopeMatches (depth : Nat) (s : IrScope) : Option Bool :=
  if s.always then some true
  else
    match anyName ir (matchOne js ir c depth) s.names with
    | none => none
    | some got => if got then some true else anyInline (matchOne js ir c depth) s.inline

def firstMatch {α : Type} (depth : Nat) (scope : α → IrScope) : List α → Option (Option α)
  | [] => some none
  | a :: as =>
    match scopeMatches js ir c depth (scope a) with
    | none => none
    | some got => if got then some (some a) else firstMatch depth scope as

end Matching

/-! ## Tables -/

def normalizeResolve (ir : Ir) (name : Str) (req : IReq) : Str :=
  match ir.normalizers.lookup name with
  | none => []
  | some n =>
    let v := match n.source with
      | .header name => req.headerCombined name
      | .cookie name => req.cookieValue name
      | .query name => req.queryGet name
    (n.mapping.lookup v).getD n.default

def tenantResolve (t : TenantResolver) (req : IReq) : Str :=
  let v := match t.fromHeader with
    | some name => toLower (req.headerCombined name)
    | none => normalizeHost req.host
  match t.rules.find? fun r => tenantRuleMatches r.1 v with
  | some r => r.2
  | none => t.default

def deviceRuleMatches (rule : DeviceRule) (ua : Str) : Bool :=
  (rule.substrings.any fun s => ua.contains s) && !rule.exclude.any fun s => ua.contains s

/-- `applyDeviceFold`: along the folds, up to a class that was there before. -/
def applyDeviceFold (folds : List (Str × Str)) : Nat → List Str → Str → Str
  | 0, _, cls => cls
  | n + 1, seen, cls =>
    match folds.reverse.lookup cls with
    | none => cls
    | some into => if seen.elem cls then cls else applyDeviceFold folds n (cls :: seen) into

def classifyDevice (ir : Ir) (req : IReq) : Str :=
  match ir.device with
  | none => []
  | some dc =>
    let ua := (req.headerValues (lit "User-Agent")).headD []
    let default := if dc.default = [] then lit "desktop" else dc.default
    let cls :=
      if ua = [] then default
      else
        match dc.rules.find? fun r => deviceRuleMatches r (toLower (ua.take 1024)) with
        | some r => r.cls
        | none => default
    applyDeviceFold dc.folds (dc.folds.length + 1) [] cls

/-- The device class of a request: the one it came with, or else the worker's own. -/
def deviceOf (ir : Ir) (req : IReq) : Str := if req.device ≠ [] then req.device else classifyDevice ir req

/-! ## Keys -/

def canonicalQuery (req : IReq) (lead : Str) (keep : Str → Bool) : Str :=
  let keys := (req.query.keys.filter keep).insertionSort fun a b => a ≤ b
  let pairs := keys.flatMap fun k =>
    (((req.query.lookup k).getD []).insertionSort fun a b => a ≤ b).map fun v =>
      queryEscape k ++ lit "=" ++ queryEscape v
  if pairs = [] then [] else lead ++ join (lit "&") pairs

section Keys

variable (js : Js) (ir : Ir) (c : Ctx)

def renderToken (depth : Nat) : IrToken → Option Str
  | .plain .method => some c.req.reqMethod
  | .plain .host => some (normalizeHost c.req.host)
  | .plain .path => some (keyValue c.req.path)
  | .plain .url => some (keyValue c.req.path ++ canonicalQuery c.req (lit "?") fun _ => true)
  | .plain .query => some (canonicalQuery c.req [] fun _ => true)
  | .plain (.queryAllow names) => some (canonicalQuery c.req [] (nameGlobMatch names))
  | .plain (.queryStrip names) => some (canonicalQuery c.req [] fun k => !nameGlobMatch names k)
  | .plain (.header name) => some (keyValue (c.req.headerCombined name))
  | .plain (.cookie name) => some (keyValue (c.req.cookieValue name))
  | .sticky cookie =>
    some (if cookie ≠ [] ∧ c.req.cookieValue cookie ≠ [] then keyValue (c.req.cookieValue cookie)
      else c.req.clientIP)
  | .plain .device => some (deviceOf ir c.req)
  | .plain .geo => some c.req.geo
  | .plain .geoContinent => some c.req.geoContinent
  | .plain .geoRegion => some c.req.geoRegion
  | .plain (.normalize ref) => some (normalizeResolve ir ref c.req)
  | .plain (.classify ref) => classifyResolve ir (matchOne js ir c depth) ref
  | .tenant name =>
    some (match ir.tenant with
      | some t => tenantResolve t c.req
      | none => name)
  | .plain (.literal text) => some text
  -- the projector gives these their arguments
  | .plain .sticky => some []
  | .plain .tenant => some []

def selectKeyTokens (depth : Nat) : Option (List IrToken) :=
  (firstMatch js ir c depth Prod.fst ir.recipes).map fun
    | some r => r.2
    | none => ir.keyTokens

def irRecipeTokens (toks : List IrToken) : List IrToken :=
  if toks.isEmpty then [.plain .method, .plain .host, .plain .path] else toks

def buildKey (depth : Nat) (toks : List IrToken) : Option Str :=
  ((irRecipeTokens toks).mapM (renderToken js ir c depth)).map (join [keyTokenSep])

end Keys

/-! ## Redirects -/

/-- `templateNamed`, where a table may throw. -/
def templateNamed (env : TemplateEnv) (classify : Str → Option (Option Str)) (name : Str) :
    Option (Option Str) :=
  let scheme := if env.scheme = lit "https" then lit "https" else lit "http"
  let scalars : List (Str × Str) :=
    [(lit "host", env.host), (lit "host.base", (hostParts env.host).1),
      (lit "host.sub", (hostParts env.host).2), (lit "path", env.path), (lit "query", env.query),
      (lit "uri", if env.query = [] then env.path else env.path ++ lit "?" ++ env.query),
      (lit "client_ip", env.clientIP), (lit "geo", env.geo), (lit "geo.continent", env.geoContinent),
      (lit "geo.region", env.geoRegion), (lit "device", env.device), (lit "proto", scheme),
      (lit "scheme", scheme)]
  match scalars.lookup name with
  | some v => some (some v)
  | none =>
    if hasPrefix name (lit "query.") ∧ name.drop 6 ≠ [] then
      some (some (((env.queryParams.lookup (name.drop 6)).getD []).headD []))
    else if hasPrefix name (lit "http.") ∧ name.drop 5 ≠ [] then
      some (some (((env.header.lookup (canonicalHeaderKey (name.drop 5))).getD []).headD []))
    else if hasPrefix name (lit "classify.") ∧ name.drop 9 ≠ [] then classify (name.drop 9)
    else some none

/-- `expandTemplate`, inside of braces if a name has been begun: the name so far, backwards. -/
def expandTemplateFrom (env : TemplateEnv) (classify : Str → Option (Option Str)) :
    Option Str → Str → Option Str
  | none, [] => some []
  | some acc, [] => some (byte '{' :: acc.reverse)
  | some acc, b :: s =>
    if b = byte '}' then
      match templateNamed env classify acc.reverse with
      | none => none
      | some v => (expandTemplateFrom env classify none s).map
          (v.getD (lit "\x7b" ++ acc.reverse ++ lit "\x7d") ++ ·)
    else expandTemplateFrom env classify (some (b :: acc)) s
  | none, [b] => some [b]
  | none, b :: n :: s =>
    if b = byte '{' then expandTemplateFrom env classify (some []) (n :: s)
    else if b ≠ byte '$' then (expandTemplateFrom env classify none (n :: s)).map (b :: ·)
    else if n = byte '$' then (expandTemplateFrom env classify none s).map (b :: ·)
    else if byte '0' ≤ n ∧ n ≤ byte '9' then
      (expandTemplateFrom env classify none s).map
        (env.capture.getD (n - byte '0').toNat [] ++ ·)
    else (expandTemplateFrom env classify none (n :: s)).map (b :: ·)

section Requests

variable (js : Js) (ir : Ir)

def trustedHostMatch (patterns : List Str) (host : Str) : Bool :=
  let host := normalizeHost host
  patterns.any fun p =>
    let lp := toLower p
    if hasPrefix lp (lit "*.") then hasSuffix host (lp.drop 1) else host == lp

variable (c : Ctx) (depth : Nat) (r : IrRedirect) (req : IReq) (capture : List Str)

def redirectHost : Str :=
  let h := normalizeHost req.host
  if ir.hosts = [] then h
  else if trustedHostMatch ir.redirectHosts h then h
  else ir.canonicalHost

def redirectEnv : TemplateEnv :=
  { host := redirectHost ir req
    path := req.path
    query := canonicalQuery req [] fun _ => true
    capture := capture
    header := req.header
    clientIP := req.clientIP
    geo := req.geo
    geoContinent := req.geoContinent
    geoRegion := req.geoRegion
    device := deviceOf ir req
    queryParams := req.query
    scheme := req.scheme }

def redirectCaptures : Option (Option (List Str)) :=
  if r.regex = [] then some (some [])
  else (js.exec r.regex r.regexFlags).map fun re => re req.path

/-- Whether `ir.classifiers[name]` is there: a table, or what every object inherits. -/
def hasTable (name : Str) : Bool :=
  (ir.classifiers.lookup name).isSome ||
    (!ir.classifiers.entries.isEmpty && objectPrototype.elem name)

/-- `evalRedirect` behind its selectors: the Location, unless the request has put another authority
into it. -/
def redirectTo : Option (Option Redirect) :=
  (expandTemplateFrom (redirectEnv ir c.req capture)
    (fun name =>
      if hasTable ir name then (classifyResolve ir (matchOne js ir c depth) name).map some
      else some none) none r.target).map
    fun expanded =>
      let loc := normalizeRedirectLocation expanded
      let reference := locationAuthority (normalizeRedirectLocation (expandTemplate r.target
        { host := redirectHost ir c.req, path := [], query := [], header := ∅, scheme := c.req.scheme }
        fun _ => none))
      match locationAuthority loc with
      | none => some ⟨r.status, loc, r.noStore⟩
      | some got => if reference = some got then some ⟨r.status, loc, r.noStore⟩ else none

def evalRedirect : Option (Option Redirect) :=
  match r.scope.elim (some true) (scopeMatches js ir c depth) with
  | none => none
  | some false => some none
  | some true =>
    match redirectCaptures js r c.req with
    | none => none
    | some none => some none
    | some (some capture) => redirectTo js ir c depth r capture

def firstRedirect (c : Ctx) (depth : Nat) : List IrRedirect → Option (Option Redirect)
  | [] => some none
  | r :: rs =>
    match evalRedirect js ir c depth r with
    | none => none
    | some (some rdr) => some (some rdr)
    | some none => firstRedirect c depth rs

/-! ## The request phase -/

def resolveUpstream : Option Str :=
  (firstMatch js ir ⟨req, [], none⟩ depth Prod.fst ir.route).map fun
    | some r => r.2
    | none => ir.upstreamTo

structure Decision where
  pass : Bool := false
  synthetic : Option Synthetic := none
  redirect : Option Redirect := none
  upstream : Str := []
  cacheKey : Str := []
  selKey : Option (List IrToken) := none

/-- **`evalRequest`**; `none` where it throws. -/
def evalRequest : Option Decision :=
  match resolveUpstream js ir depth req with
  | none => none
  | some upstream =>
    let c : Ctx := ⟨req, upstream, none⟩
    match ir.respond.find? fun r => req.path == r.1 with
    | some r => some { upstream, synthetic := some r.2 }
    | none =>
      match firstRedirect js ir c depth ir.redirect with
      | none => none
      | some (some rdr) => some { upstream, redirect := some rdr }
      | some none =>
        match firstMatch js ir c depth id ir.pass, selectKeyTokens js ir c depth with
        | some passed, some toks =>
          (buildKey js ir c depth toks).map fun key =>
            { upstream, pass := passed.isSome, cacheKey := key, selKey := some toks }
        | _, _ => none

end Requests

end Cadish.Edge
