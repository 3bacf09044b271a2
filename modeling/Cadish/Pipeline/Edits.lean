import Cadish.Pipeline.Isolation
import Cadish.Pipeline.Inputs

/-!
# Edits of the origin request

The values of the header edits are rendered for a client without the classes that the recipe does
not key on (`maskedClone`). **Two clients that differ in their classes only, and share a recipe and
a key, get the same edits** (`originEffects_eq`), if each rule applies to both or to neither
(`originEffects_scoped`) and a table that reads the upstream reads the same.
-/

namespace Cadish

open Str Pipeline

/-! ## Templates -/

def baseSuffixes : List Str :=
  [ "co.uk", "org.uk", "gov.uk", "ac.uk", "me.uk", "net.uk", "sch.uk", "com.au", "net.au", "org.au",
    "edu.au", "gov.au", "com.br", "net.br", "org.br", "com.mx", "org.mx", "com.cn", "net.cn",
    "org.cn", "co.jp", "ne.jp", "or.jp", "co.nz", "net.nz", "org.nz", "co.za", "org.za", "co.in",
    "co.kr", "com.tr", "com.sg", "com.hk", "com.tw", "tech555.io"].map lit

/-- `hostParts`: the registrable domain of a host, and the labels below it. -/
def hostParts (host : Str) : Str × Str :=
  let h := host.takeWhile (· ≠ byte ':')
  let h := if h.getLast? = some (byte '.') then h.dropLast else h
  let h := toLower h
  let labels := split (byte '.') h
  let n := labels.length
  if h = [] ∨ n ≤ 1 then (h, [])
  else
    let listed (k : Nat) : Bool := k ≤ n && baseSuffixes.elem (join (lit ".") (labels.drop (n - k)))
    let suffixLabels := ([4, 3, 2].find? listed).getD 1
    -- a bare suffix has no label above it
    if n ≤ suffixLabels then (h, [])
    else
      let start := n - suffixLabels - 1
      (join (lit ".") (labels.drop start), join (lit ".") (labels.take start))

structure TemplateEnv where
  host : Str
  path : Str
  query : Str
  capture : List Str := []
  header : Header
  clientIP : Str := []
  geo : Str := []
  geoContinent : Str := []
  geoRegion : Str := []
  device : Str := []
  queryParams : FinMap Str (List Str) := ∅
  scheme : Str := []

/-- `TemplateEnv.named`: the value of a placeholder, if the name is known. A table that is not
there is not known. -/
def TemplateEnv.named (env : TemplateEnv) (classify : Str → Option Str) (name : Str) : Option Str :=
  let scheme := if env.scheme = lit "https" then lit "https" else lit "http"
  let scalars : List (Str × Str) :=
    [(lit "host", env.host), (lit "host.base", (hostParts env.host).1),
      (lit "host.sub", (hostParts env.host).2), (lit "path", env.path), (lit "query", env.query),
      (lit "uri", if env.query = [] then env.path else env.path ++ lit "?" ++ env.query),
      (lit "client_ip", env.clientIP), (lit "geo", env.geo), (lit "geo.continent", env.geoContinent),
      (lit "geo.region", env.geoRegion), (lit "device", env.device), (lit "proto", scheme),
      (lit "scheme", scheme)]
  match scalars.lookup name with
  | some v => some v
  | none =>
    if hasPrefix name (lit "query.") ∧ name.drop 6 ≠ [] then
      some (((env.queryParams.lookup (name.drop 6)).getD []).headD [])
    else if hasPrefix name (lit "http.") ∧ name.drop 5 ≠ [] then
      some (env.header.get (name.drop 5))
    else if hasPrefix name (lit "classify.") ∧ name.drop 9 ≠ [] then classify (name.drop 9)
    else none

/-- `expandTemplate`, inside of braces if a name has been begun: the name so far, backwards. A name
that is not known stays as it is, and so does a brace that is never closed. -/
def expandFrom (env : TemplateEnv) (classify : Str → Option Str) : Option Str → Str → Str
  | none, [] => []
  | some acc, [] => byte '{' :: acc.reverse
  | some acc, b :: s =>
    if b = byte '}' then
      (env.named classify acc.reverse).getD (lit "\x7b" ++ acc.reverse ++ lit "\x7d") ++
        expandFrom env classify none s
    else expandFrom env classify (some (b :: acc)) s
  | none, [b] => [b]
  | none, b :: n :: s =>
    if b = byte '{' then expandFrom env classify (some []) (n :: s)
    else if b ≠ byte '$' then b :: expandFrom env classify none (n :: s)
    else if n = byte '$' then b :: expandFrom env classify none s
    else if byte '0' ≤ n ∧ n ≤ byte '9' then
      env.capture.getD (n - byte '0').toNat [] ++ expandFrom env classify none s
    else b :: expandFrom env classify none (n :: s)

def expandTemplate (tmpl : Str) (env : TemplateEnv) (classify : Str → Option Str) : Str :=
  expandFrom env classify none tmpl

example : hostParts (lit "es.shop.co.uk") = (lit "shop.co.uk", lit "es") := by decide

/-! ## Header edits -/

inductive HeaderOp where
  | set (name value : Str)
  | append (name value : Str)
  | remove (name : Str)
deriving DecidableEq, Repr

inductive HeaderOpKind where
  | set
  | append
  | remove
  | cacheStatus
  | cacheKey
  | cacheAge
deriving DecidableEq, Repr

structure HeaderEdit where
  op : HeaderOpKind
  name : Str
  value : Str
  valueTpl : Bool

structure HeaderRule where
  scope : Scope
  ops : List HeaderEdit

/-- The edit that is made. The cache status is known at delivery only, and the specials of the key
and the age are the server's. -/
def HeaderEdit.emit (status : Option Str) (expand : Str → Str) (e : HeaderEdit) : Option HeaderOp :=
  let value := if e.valueTpl then expand e.value else e.value
  match e.op with
  | .set => some (.set e.name value)
  | .append => some (.append e.name value)
  | .remove => some (.remove e.name)
  | .cacheStatus => status.map (.set e.name)
  | .cacheKey | .cacheAge => none

structure ClassKeyMask where
  device : Bool
  geo : Bool
  geoContinent : Bool
  geoRegion : Bool

def maskFromTokens (toks : List KeyToken) : ClassKeyMask :=
  { device := toks.any fun | .device => true | _ => false
    geo := toks.any fun | .geo => true | _ => false
    geoContinent := toks.any fun | .geoContinent => true | _ => false
    geoRegion := toks.any fun | .geoRegion => true | _ => false }

variable (classifiers : FinMap Str Classifier) (tls : Bool) (c : MatchContext) (req : Request)
  (m : ClassKeyMask)

def ClassKeyMask.allKeyed : Bool :=
  m.device && m.geo && m.geoContinent && m.geoRegion

def Request.masked : Request :=
  { req with
    device := if m.device then req.device else []
    geo := if m.geo then req.geo else []
    geoContinent := if m.geoContinent then req.geoContinent else []
    geoRegion := if m.geoRegion then req.geoRegion else [] }

def maskedClone (upstream : Str) (m : ClassKeyMask) : MatchContext :=
  ⟨req.masked m, upstream, none⟩

def MatchContext.valueContext : Option ClassKeyMask → MatchContext
  | some m => if m.allKeyed then c else maskedClone c.req c.upstream m
  | none => c

def headerTemplateEnv : TemplateEnv :=
  { host := c.req.normHost
    path := c.req.path
    query := canonicalQuery c.req [] fun _ => true
    header := c.req.header
    clientIP := c.req.clientIP
    geo := c.req.geo
    geoContinent := c.req.geoContinent
    geoRegion := c.req.geoRegion
    device := c.req.device
    queryParams := c.req.query
    scheme := if tls then lit "https" else lit "http" }

def classifyResolver (name : Str) : Option Str :=
  (classifiers.lookup name).map fun cl => cl.resolve c

/-- `applyHeaderRules`. A rule applies to the request as it is; its templates are rendered for the
masked one. -/
def applyHeaderRules (rules : List HeaderRule) (c : MatchContext) (status : Option Str)
    (mask : Option ClassKeyMask) : List HeaderOp :=
  let valCtx := c.valueContext mask
  rules.flatMap fun r =>
    if c.scopeMatches r.scope then
      r.ops.filterMap (HeaderEdit.emit status fun tmpl =>
        expandTemplate tmpl (headerTemplateEnv tls valCtx) (classifyResolver classifiers valCtx))
    else []

/-! ## Rewrites -/

structure RewriteDecision where
  path : Str
  rawQuery : Str
deriving DecidableEq, Repr

inductive RewriteOp where
  | path (replace : Str → Option Str)
  | stripQuery (names : Pattern)
  | setQuery (name valueTpl : Str)

structure RewriteRule where
  scope : Scope
  op : RewriteOp

def encodeQuerySorted (query : FinMap Str (List Str)) : Str :=
  let keys := query.keys.insertionSort fun a b => a ≤ b
  join (lit "&") (keys.flatMap fun k =>
    (((query.lookup k).getD []).insertionSort fun a b => a ≤ b).map fun v =>
      queryEscape k ++ lit "=" ++ queryEscape v)

/-- `resolveRewriteValue`: a template without braces is a literal, and the classes have no names
here. -/
def resolveRewriteValue (tpl : Str) (req : Request) : Str :=
  if tpl.elem (byte '{') then
    expandTemplate tpl
      { host := req.normHost, path := req.path, query := canonicalQuery req [] fun _ => true
        header := req.header } fun _ => none
  else tpl

/-- A rewrite on its way: the path, the query once it is copied, and whether a rule matched. -/
structure RewriteState where
  path : Str
  query : Option (FinMap Str (List Str))
  matched : Bool

def RewriteRule.step (s : RewriteState) (r : RewriteRule) : RewriteState :=
  if c.scopeMatches r.scope then
    match r.op with
    | .path replace =>
      match replace s.path with
      | some path => { s with path := path, matched := true }
      | none => s
    | .stripQuery names =>
      { s with query := some ((s.query.getD c.req.query).filter fun name _ => !names name), matched := true }
    | .setQuery name valueTpl =>
      { s with
        query := some ((s.query.getD c.req.query).insert name [resolveRewriteValue valueTpl c.req])
        matched := true }
  else s

/-- `evalRewrite`. A rewrite of the path alone writes the query anew all the same. -/
def evalRewrite (rules : List RewriteRule) (c : MatchContext) : Option RewriteDecision :=
  let s := rules.foldl (RewriteRule.step c) ⟨c.req.path, none, false⟩
  if s.matched then some ⟨s.path, encodeQuerySorted (s.query.getD c.req.query)⟩ else none

/-! ## The effects of a request -/

structure OriginEdits where
  reqHeaderRules : List HeaderRule
  rewriteRules : List RewriteRule
  classifiers : FinMap Str Classifier

/-- The part of `EvalRequest` that is bound for the origin: `ReqHeaderOps` and `Rewrite`. A request
that is answered or redirected has none. -/
def Pipeline.originEffects (p : Pipeline) (e : OriginEdits) (tls : Bool) (req : Request) :
    List HeaderOp × Option RewriteDecision :=
  let c := p.context req none
  match (p.evalRequest req).selKey with
  | none => ([], none)
  | some toks =>
    (applyHeaderRules e.classifiers tls e.reqHeaderRules c none (some (maskFromTokens toks)),
      evalRewrite e.rewriteRules c)

/-! ## Classes under one key -/

def Request.ClassesApart (r r' : Request) : Prop :=
  ∃ device geo continent region, r' =
    { r with device := device, geo := geo, geoContinent := continent, geoRegion := region }

structure Request.PlainClasses (r : Request) : Prop where
  device : keyTokenSep ∉ r.device
  geo : keyTokenSep ∉ r.geo
  continent : keyTokenSep ∉ r.geoContinent
  region : keyTokenSep ∉ r.geoRegion

section Classes

variable {p : Pipeline} {e : OriginEdits} {tls : Bool} {c c' : MatchContext} {r r' : Request}
  {toks : List KeyToken}

theorem writeToken_apart (h : c.req.ClassesApart c'.req) (hplain : c.req.PlainClasses)
    (hplain' : c'.req.PlainClasses) (stickyCookie : Str) {t : KeyToken}
    (htables : ∀ cl, t = .classify cl → (KeyToken.classify cl).Plain) :
    writeToken c stickyCookie t = writeToken c' stickyCookie t ∨
      (keyTokenSep ∉ writeToken c stickyCookie t ∧ keyTokenSep ∉ writeToken c' stickyCookie t) := by
  obtain ⟨req', upstream', resp'⟩ := c'
  obtain ⟨device, geo, continent, region, rfl⟩ := h
  cases t with
  | device => exact .inr ⟨hplain.device, hplain'.device⟩
  | geo => exact .inr ⟨hplain.geo, hplain'.geo⟩
  | geoContinent => exact .inr ⟨hplain.continent, hplain'.continent⟩
  | geoRegion => exact .inr ⟨hplain.region, hplain'.region⟩
  | classify cl =>
    obtain ⟨hdefault, hrows⟩ := htables cl rfl
    exact .inr ⟨resolveRows_plain _ hdefault hrows, resolveRows_plain _ hdefault hrows⟩
  | _ => exact .inl rfl

theorem maskFromTokens_mem :
    ((maskFromTokens toks).device = true → .device ∈ toks) ∧
    ((maskFromTokens toks).geo = true → .geo ∈ toks) ∧
    ((maskFromTokens toks).geoContinent = true → .geoContinent ∈ toks) ∧
    ((maskFromTokens toks).geoRegion = true → .geoRegion ∈ toks) := by
  simp only [maskFromTokens, List.any_eq_true]
  refine ⟨?_, ?_, ?_, ?_⟩
  all_goals
    rintro ⟨t, ht, hclass⟩
    cases t <;> first | exact ht | cases hclass

theorem mem_recipeTokens {t : KeyToken} (ht : t ∈ toks) : t ∈ recipeTokens toks := by
  rw [recipeTokens, if_neg]
  · exact ht
  · intro hempty
    rw [List.isEmpty_iff.mp hempty] at ht
    cases ht

theorem masked_eq (h : r.ClassesApart r') {stickyCookie upstream upstream' : Str}
    (hkey : ∀ t ∈ recipeTokens toks, writeToken ⟨r, upstream, none⟩ stickyCookie t =
      writeToken ⟨r', upstream', none⟩ stickyCookie t) :
    r.masked (maskFromTokens toks) = r'.masked (maskFromTokens toks) := by
  obtain ⟨device, geo, continent, region, rfl⟩ := h
  obtain ⟨hdevice, hgeo, hcontinent, hregion⟩ := @maskFromTokens_mem toks
  -- a class is blank on both sides, or its token is in the recipe
  have hclass {m : Bool} {x y : Str} (h : m = true → x = y) :
      (if m then x else []) = if m then y else [] := by
    cases m with
    | false => rfl
    | true => exact h rfl
  simp only [Request.masked]
  congr 1
  · exact hclass fun hm => hkey .device (mem_recipeTokens (hdevice hm))
  · exact hclass fun hm => hkey .geo (mem_recipeTokens (hgeo hm))
  · exact hclass fun hm => hkey .geoContinent (mem_recipeTokens (hcontinent hm))
  · exact hclass fun hm => hkey .geoRegion (mem_recipeTokens (hregion hm))

theorem valueContext_eq (c : MatchContext) (hresp : c.respHeader = none) (m : ClassKeyMask) :
    c.valueContext (some m) = ⟨c.req.masked m, c.upstream, none⟩ := by
  rw [MatchContext.valueContext]
  split
  case isTrue hall =>
    -- a mask that keeps all the classes leaves the request as it is
    obtain ⟨device, geo, continent, region⟩ := m
    simp only [ClassKeyMask.allKeyed, Bool.and_eq_true] at hall
    obtain ⟨⟨⟨rfl, rfl⟩, rfl⟩, rfl⟩ := hall
    obtain ⟨req, upstream, resp⟩ := c
    obtain rfl : resp = none := hresp
    rfl
  case isFalse => rfl

theorem classifyResolver_upstream {classifiers : FinMap Str Classifier} {req : Request}
    {upstream upstream' : Str}
    (h : upstream = upstream' ∨
      ∀ name cl, classifiers.lookup name = some cl → Input.upstream ∉ rowInputs cl.rows) :
    classifyResolver classifiers ⟨req, upstream, none⟩ =
      classifyResolver classifiers ⟨req, upstream', none⟩ := by
  obtain rfl | htables := h
  · rfl
  funext name
  rw [classifyResolver, classifyResolver]
  cases hcl : classifiers.lookup name with
  | none => rfl
  | some cl =>
    have hagrees : ∀ i ∈ rowInputs cl.rows, i.Agrees (⟨req, upstream, none⟩ : MatchContext)
        ⟨req, upstream', none⟩ := by
      intro i hi
      cases i with
      | upstream => exact absurd hi (htables name cl hcl)
      | cookies pre => exact fun _ _ => rfl
      | geo gran => cases gran <;> rfl
      | _ => rfl
    exact congrArg some (resolveRows_agrees cl.default cl.rows hagrees)

theorem evalRewrite_apart {rules : List RewriteRule} (h : c.req.ClassesApart c'.req)
    (hscopes : ∀ rule ∈ rules, c.scopeMatches rule.scope = c'.scopeMatches rule.scope) :
    evalRewrite rules c = evalRewrite rules c' := by
  obtain ⟨device, geo, continent, region, hreq⟩ := h
  have hvalue (tpl : Str) : resolveRewriteValue tpl c.req = resolveRewriteValue tpl c'.req := by
    rw [hreq]
    rfl
  have hpath : c.req.path = c'.req.path := by rw [hreq]
  have hquery : c.req.query = c'.req.query := by rw [hreq]
  have hfold : rules.foldl (RewriteRule.step c) ⟨c.req.path, none, false⟩ =
      rules.foldl (RewriteRule.step c') ⟨c'.req.path, none, false⟩ := by
    rw [hpath]
    refine List.foldl_ext _ _ _ fun s rule hrule => ?_
    simp only [RewriteRule.step, hscopes rule hrule, hquery, hvalue]
  simp only [evalRewrite, hfold, hquery]

theorem applyHeaderRules_apart {classifiers : FinMap Str Classifier} {rules : List HeaderRule}
    {m : ClassKeyMask} (hresp : c.respHeader = none) (hresp' : c'.respHeader = none)
    (hmasked : c.req.masked m = c'.req.masked m)
    (hscopes : ∀ rule ∈ rules, c.scopeMatches rule.scope = c'.scopeMatches rule.scope)
    (hup : c.upstream = c'.upstream ∨
      ∀ name cl, classifiers.lookup name = some cl → Input.upstream ∉ rowInputs cl.rows) :
    applyHeaderRules classifiers tls rules c none (some m) =
      applyHeaderRules classifiers tls rules c' none (some m) := by
  simp only [applyHeaderRules, valueContext_eq c hresp, valueContext_eq c' hresp', hmasked]
  refine List.flatMap_congr fun rule hrule => ?_
  rw [hscopes rule hrule, classifyResolver_upstream hup]
  rfl

variable (p e tls) in
/-- **Classes that are not keyed on do not reach the origin**, if the rules apply to both requests
or to neither, and the tables do not tell them apart by their upstream. -/
theorem originEffects_eq (hapart : r.ClassesApart r')
    (hrecipe : (p.evalRequest r).selKey = (p.evalRequest r').selKey)
    (hkey : (p.evalRequest r).cacheKey = (p.evalRequest r').cacheKey) (hplain : r.PlainClasses)
    (hplain' : r'.PlainClasses)
    (htables : ∀ toks, (p.evalRequest r).selKey = some toks → ∀ cl, .classify cl ∈ toks → (KeyToken.classify cl).Plain)
    (hheaders : ∀ rule ∈ e.reqHeaderRules, (p.context r none).scopeMatches rule.scope = (p.context r' none).scopeMatches rule.scope)
    (hrewrites : ∀ rule ∈ e.rewriteRules, (p.context r none).scopeMatches rule.scope = (p.context r' none).scopeMatches rule.scope)
    (hup : p.resolveUpstream r = p.resolveUpstream r' ∨ ∀ name cl, e.classifiers.lookup name = some cl → Input.upstream ∉ rowInputs cl.rows) :
    p.originEffects e tls r = p.originEffects e tls r' := by
  simp only [originEffects, ← hrecipe]
  cases hsel : (p.evalRequest r).selKey with
  | none => rfl
  | some toks =>
    -- the two keys are renderings of the one recipe
    obtain ⟨-, hkey₁⟩ := p.evalRequest_captured hsel
    obtain ⟨-, hkey₂⟩ := p.evalRequest_captured (hrecipe.symm.trans hsel)
    have hbuilt := hkey₁.symm.trans (hkey.trans hkey₂)
    have hseparable : ∀ t ∈ recipeTokens toks,
        writeToken (p.context r none) p.stickyCookie t = writeToken (p.context r' none) p.stickyCookie t ∨
          (keyTokenSep ∉ writeToken (p.context r none) p.stickyCookie t ∧
            keyTokenSep ∉ writeToken (p.context r' none) p.stickyCookie t) := by
      intro t ht
      refine writeToken_apart hapart hplain hplain' p.stickyCookie ?_
      rintro cl rfl
      refine htables toks hsel cl ?_
      rw [recipeTokens] at ht
      split at ht
      · simp [defaultKeyTokens] at ht
      · exact ht
    have hmasked := masked_eq hapart (writeToken_eq_of_separable hseparable hbuilt)
    simp only
    rw [applyHeaderRules_apart rfl rfl hmasked hheaders hup, evalRewrite_apart hapart hrewrites]

/-! ### A site that tells its origin the country -/

/-- `header X-Country {geo}`, `rewrite @us path ^.*$ /us` and `header @us X-Market us` for a
matcher `@us`, or without it. -/
def countryEdits (us : Scope) : OriginEdits :=
  { reqHeaderRules := [⟨none, [⟨.set, lit "X-Country", lit "\x7bgeo\x7d", true⟩]⟩,
      ⟨us, [⟨.set, lit "X-Market", lit "us", false⟩]⟩]
    rewriteRules := [⟨us, .path fun _ => some (lit "/us")⟩]
    classifiers := ∅ }

def clientFrom (country : Str) : Request := { Request.get (lit "/") ∅ with geo := country }

theorem originEffects_eq_masked :
    bare.originEffects (countryEdits none) false (clientFrom (lit "US")) =
        bare.originEffects (countryEdits none) false (clientFrom (lit "DE")) ∧
      (bare.originEffects (countryEdits none) false (clientFrom (lit "US"))).1 =
        [.set (lit "X-Country") [], .set (lit "X-Market") (lit "us")] := by
  refine ⟨originEffects_eq _ _ _ ⟨[], lit "DE", [], [], rfl⟩ rfl rfl ?_ ?_ ?_ ?_ ?_ (.inl rfl), by decide⟩
  · exact ⟨by decide, by decide, by decide, by decide⟩
  · exact ⟨by decide, by decide, by decide, by decide⟩
  · rintro toks htoks cl hcl
    obtain rfl : [] = toks := Option.some.inj htoks
    cases hcl
  · decide
  · decide

-- a table that reads the upstream, which is chosen by the country
example : originEffects { bare with routeRules := [(some [.geo .country [lit "US"]], lit "us")] }
      ⟨[⟨none, [⟨.set, lit "X-Market", lit "\x7bclassify.M\x7d", true⟩]⟩], [],
        AList.insert (lit "M") ⟨[([.upstream [lit "us"]], lit "1")], lit "0", [], []⟩ ∅⟩ false
      (clientFrom (lit "US")) = ([.set (lit "X-Market") (lit "1")], none) := by decide

/-- **Whether a rule applies is decided for the client as it is**: the origin is told of a market,
and asked for another path, under a key without the country. -/
theorem originEffects_scoped :
    ¬ ∀ (p : Pipeline) (e : OriginEdits) (tls : Bool) (r r' : Request), r.ClassesApart r' →
      (p.evalRequest r).selKey = (p.evalRequest r').selKey →
      (p.evalRequest r).cacheKey = (p.evalRequest r').cacheKey →
      p.originEffects e tls r = p.originEffects e tls r' := by
  intro h
  have heq := h bare (countryEdits (some [.geo .country [lit "US"]])) false
    (clientFrom (lit "US")) (clientFrom (lit "DE")) ⟨[], lit "DE", [], [], rfl⟩ rfl rfl
  revert heq
  decide

end Classes

end Cadish
