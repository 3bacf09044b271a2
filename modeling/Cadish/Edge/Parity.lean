import Cadish.Edge.Names

/-!
# The request phase on both sides

A site whose projection has no gaps is decided at the edge as on the server, byte for byte. **This
rests on the libraries** (`Plan.Agrees`): the server's regexes are not `RegExp`'s, and the projector
lets most of them through: `\A/admin` at the edge finds `A/admin`. The plan has to be `Projectable`,
a redirect may not name a missing table that every object inherits, and the device class was
resolved where the site has a classifier.
-/

namespace Cadish.Edge

open Option TargetRule Pipeline
open List hiding beq_eq_decide

/-! ## Lists of rules -/

section Rules

variable {E : Engines} {js : Js} {ir : Ir} {c : MatchContext} {i : Ctx}

theorem firstMatch_project (hs : SameContext c i) {α β : Type} {scope : α → IrScope} {g : β → α}
    {sc : β → PlanScope} {depth : Nat} {l : List β} (h : ∀ b ∈ l, scope (g b) = projectScope (sc b) ∧
      ScopeStands ir (Leaf.Agrees E js i.req i.respHeader) (sc b) ∧ scopeHeight (sc b) ≤ depth) :
    firstMatch js ir i depth scope (l.map g) =
      some ((l.find? fun b => c.scopeMatches (compileScope E (sc b))).map g) := by
  induction l with
  | nil => rfl
  | cons b l ih =>
    obtain ⟨hscope, hstands, hd⟩ := h b mem_cons_self
    rw [map_cons, firstMatch, hscope, scopeMatches_project hs (sc b) hstands hd,
      ih fun b' hb' => h b' (mem_cons_of_mem _ hb'), find?_cons]
    cases c.scopeMatches (compileScope E (sc b)) <;> rfl

end Rules

/-! ## Templates -/

/-- The names in the braces of a template; inside of braces, the name so far, backwards. -/
def placeholders : Option Str → Str → List Str
  | none, [] => []
  | some _, [] => []
  | some acc, b :: s =>
    if b = Str.byte '}' then acc.reverse :: placeholders none s else placeholders (some (b :: acc)) s
  | none, [_] => []
  | none, b :: n :: s =>
    if b = Str.byte '{' then placeholders (some []) (n :: s)
    else if b ≠ Str.byte '$' then placeholders none (n :: s)
    else if n = Str.byte '$' then placeholders none s
    else if Str.byte '0' ≤ n ∧ n ≤ Str.byte '9' then placeholders none s
    else placeholders none (n :: s)

theorem expandTemplateFrom_eq {env env' : TemplateEnv} {classify : Str → Option (Option Str)}
    {classify' : Str → Option Str} (hcapture : ∀ n, env.capture.getD n [] = env'.capture.getD n [])
    (acc : Option Str) (s : Str) (hnames : ∀ name ∈ placeholders acc s,
      templateNamed env classify name = some (env'.named classify' name)) :
    expandTemplateFrom env classify acc s = some (expandFrom env' classify' acc s) := by
  fun_induction placeholders acc s with
  | case1 | case2 acc | case5 b => rfl
  | case3 acc s ih =>
    rw [expandTemplateFrom, if_pos rfl, expandFrom, if_pos rfl, hnames _ mem_cons_self]
    dsimp only
    rw [ih fun name hname => hnames name (mem_cons_of_mem _ hname), map_some]
  | case4 acc b s hb ih => rw [expandTemplateFrom, if_neg hb, expandFrom, if_neg hb, ih hnames]
  | case6 n s ih => rw [expandTemplateFrom, if_pos rfl, expandFrom, if_pos rfl, ih hnames]
  | case7 b n s hb hd ih =>
    rw [expandTemplateFrom, if_neg hb, if_pos hd, expandFrom, if_neg hb, if_pos hd, ih hnames,
      map_some]
  | case8 b s hb hd ih =>
    rw [expandTemplateFrom, if_neg hb, if_neg hd, if_pos rfl, expandFrom, if_neg hb, if_neg hd,
      if_pos rfl, ih hnames, map_some]
  | case9 b n s hb hd hn hdigit ih =>
    rw [expandTemplateFrom, if_neg hb, if_neg hd, if_neg hn, if_pos hdigit, expandFrom, if_neg hb,
      if_neg hd, if_neg hn, if_pos hdigit, ih hnames, map_some, hcapture]
  | case10 b n s hb hd hn hdigit ih =>
    rw [expandTemplateFrom, if_neg hb, if_neg hd, if_neg hn, if_neg hdigit, expandFrom, if_neg hb,
      if_neg hd, if_neg hn, if_neg hdigit, ih hnames, map_some]

theorem templateNamed_eq {env : TemplateEnv} {classify : Str → Option (Option Str)}
    {classify' : Str → Option Str} {name : Str} (hheader : Received env.header)
    (hclassify : ∀ t, name = lit "classify." ++ t → classify t = some (classify' t)) :
    templateNamed env classify name = some (env.named classify' name) := by
  simp only [templateNamed, TemplateEnv.named]
  generalize lookup name _ = scalar
  cases scalar with
  | some v => rfl
  | none =>
    dsimp only
    split
    · rfl
    split
    · rw [lookup_canonicalHeaderKey hheader]
      rfl
    split
    case isTrue hname =>
      obtain ⟨t, ht⟩ := isPrefixOf_iff_prefix.mp hname.1
      have hlen : (lit "classify.").length = 9 := by decide
      have hdrop : name.drop 9 = t := by rw [← ht, ← hlen, drop_left]
      rw [hdrop, hclassify t ht.symm]
    case isFalse => rfl

/-! ## Plans -/

namespace Plan

def requestScopes (p : Plan) : List PlanScope :=
  p.route.map (·.1) ++ p.redirect.map (·.scope) ++ p.pass ++ p.upgrade ++ p.credentialed ++
    p.keyRules.map (·.scope)

def HasRef (p : Plan) : PlanToken → Prop
  | .classify ref => ∃ cl, p.classifiers.lookup ref = some cl
  | .normalize ref => ∃ n, p.normalizers.lookup ref = some n
  | _ => True

/-- The names of a plan are resolved, as the compiler resolves them, and its leaves have a
property. -/
structure Resolved (p : Plan) (P : Leaf Str → Prop) (scopes : List PlanScope) : Prop where
  scopes : ∀ s ∈ scopes, ∀ ms ∈ s, ConjNamed p P ms
  tables : ∀ token cl, p.classifiers.lookup token = some cl → RowsNamed p P cl.rows
  tokens : ∀ r ∈ p.keyRules, ∀ t ∈ r.toks, p.HasRef t

structure Fits (p : Plan) (scopes : List PlanScope) (depth : Nat) : Prop where
  scopes : ∀ s ∈ scopes, scopeHeight s ≤ depth
  tables : ∀ token cl, p.classifiers.lookup token = some cl → rowsHeight cl.rows ≤ depth

theorem exists_fits (p : Plan) (scopes : List PlanScope) :
    ∃ d, ∀ depth, d ≤ depth → p.Fits scopes depth := by
  have hbound (l : List Nat) : ∃ d, ∀ n ∈ l, n ≤ d := by
    induction l with
    | nil => exact ⟨0, by simp⟩
    | cons n l ih =>
      obtain ⟨d, hd⟩ := ih
      refine ⟨max n d, fun m hm => ?_⟩
      rcases mem_cons.mp hm with rfl | hm
      · exact le_max_left _ _
      · exact (hd m hm).trans (le_max_right _ _)
  obtain ⟨d, hd⟩ := hbound (scopes.map scopeHeight ++
    p.classifiers.entries.map fun e => rowsHeight e.2.rows)
  refine ⟨d, fun depth hdepth => ⟨fun s hs => ?_, fun token cl hcl => ?_⟩⟩
  · exact (hd _ (mem_append_left _ (List.mem_map_of_mem hs))).trans hdepth
  · exact (hd _ (mem_append_right _ (List.mem_map_of_mem
      (f := fun e : Sigma fun _ : Str => PlanClassifier => rowsHeight e.2.rows)
      (AList.mem_lookup_iff.mp hcl)))).trans hdepth

/-- The groups of a redirect's regex are those of the server. A pattern that is empty is no regex for
the worker; the server finds an empty text with it. -/
def CapturesAgree (E : Engines) (js : Js) (src path : Str) : Prop :=
  ∃ pat flags, splitRE2Flags src = some (pat, flags) ∧
    if pat = [] then ∃ groups, E.find src path = some groups ∧ ∀ g ∈ groups, g = []
    else ∃ re, js.exec pat flags = some re ∧ re path = E.find src path

/-- **The libraries agree about a plan, on the values of a request.** -/
structure Agrees (p : Plan) (E : Engines) (js : Js) (req : IReq) : Prop where
  leaves : p.Resolved (Leaf.Agrees E js req none) p.requestScopes
  captures : ∀ r ∈ p.redirect, ∀ src ∈ r.regex, CapturesAgree E js src req.path

/-- A redirect names no table that is not there and that every object inherits. -/
def OwnTables (p : Plan) : Prop :=
  ∀ r ∈ p.redirect, ∀ name ∈ objectPrototype,
    lit "classify." ++ name ∈ placeholders none r.target → (p.classifiers.lookup name).isSome

end Plan

def toIReq (r : Request) (tls : Bool) : IReq where
  method := r.method
  host := r.host
  path := r.path
  query := r.query
  header := r.header
  clientIP := r.clientIP
  scheme := schemeOf tls
  device := r.device
  geo := r.geo
  geoContinent := r.geoContinent
  geoRegion := r.geoRegion

theorem sameRequest_toIReq {r : Request} (h : Received r.header) (tls : Bool) :
    SameRequest r (toIReq r tls) :=
  ⟨h, rfl, rfl, rfl, rfl, rfl, rfl, rfl, rfl⟩

/-- What a request comes to. -/
structure Outcome where
  synthetic : Option Synthetic
  redirect : Option Redirect
  pass : Bool
  upstream : Str
  cacheKey : Str
deriving DecidableEq, Repr

def serverOutcome (d : RequestDecision) : Outcome :=
  ⟨d.synthetic, d.redirect, d.pass, d.upstream, d.cacheKey⟩

def Decision.outcome (d : Decision) : Outcome :=
  ⟨d.synthetic, d.redirect, d.pass, d.upstream, d.cacheKey⟩

/-! ## Tables, keys and redirects -/

section Keys

variable {E : Engines} {js : Js} {p : Plan} {scopes : List PlanScope} {c : MatchContext} {i : Ctx}
  {depth : Nat} {tls : Bool}

variable {r : Request} {q : IReq}

theorem SameRequest.normalizeResolve (h : SameRequest r q) {ir : Ir} {ref : Str} {n : Normalizer}
    (hn : ir.normalizers.lookup ref = some n) : Edge.normalizeResolve ir ref q = n.resolve r := by
  obtain ⟨source, mapping, default⟩ := n
  rw [Edge.normalizeResolve, hn, Normalizer.resolve, Normalizer.sourceValue]
  cases source with
  | header name =>
    dsimp only
    rw [h.headerCombined]
  | cookie name =>
    dsimp only
    rw [h.cookieValue]
  | query name =>
    dsimp only
    rw [IReq.queryGet, h.query]

theorem SameRequest.tenantResolve (h : SameRequest r q) (t : TenantResolver)
    : Edge.tenantResolve t q = t.resolve r := by
  simp only [Edge.tenantResolve, h.headerCombined, h.host]
  rfl

theorem selectKeyTokens_project (hs : SameContext c i) (hp : p.Projectable)
    (hres : p.Resolved (Leaf.Agrees E js i.req i.respHeader) p.requestScopes)
    (hfits : p.Fits p.requestScopes depth)
    (hclosed : ∀ r ∈ p.keyRules, p.recipeFailsClosed r = false)
    (hdefault : p.tokensFailClosed p.edgeKeyTokens = false) (tls : Bool) :
    ∃ toks : List PlanToken, (∀ t ∈ toks, p.HasRef t) ∧
      selectKeyTokens js p.project i depth = some (toks.map p.projectToken) ∧
        recipeTokens ((p.pipeline E tls).selectKeyTokens c) =
          recipeTokens (toks.map (p.compileToken E)) := by
  have hscope {r : PlanKeyRule} (hr : r ∈ p.keyRules) : r.scope ∈ p.requestScopes :=
    mem_append_right _ (List.mem_map_of_mem hr)
  have hrecipes : p.project.recipes = p.keyRules.map fun r =>
      (projectScope r.scope, r.toks.map p.projectToken) := by
    change (p.keyRules.filter fun r => !p.recipeFailsClosed r).map _ = _
    rw [filter_eq_self.mpr fun r hr => by rw [hclosed r hr]; rfl]
  have hfirst : firstMatch js p.project i depth Prod.fst p.project.recipes =
      some ((p.keyRules.find? fun r => c.scopeMatches (compileScope E r.scope)).map fun r =>
        (projectScope r.scope, r.toks.map p.projectToken)) := by
    rw [hrecipes]
    exact firstMatch_project hs fun r hr =>
      ⟨rfl, ConjNamed.scopeStands hp (hres.scopes _ (hscope hr)), hfits.scopes _ (hscope hr)⟩
  have hmatch (r : PlanKeyRule) : (p.compileKeyRule E r).sel.matches c 0 =
      c.scopeMatches (compileScope E r.scope) := by
    rw [Plan.compileKeyRule]
    cases r.scope <;> rfl
  have hserver : (p.pipeline E tls).selectKeyTokens c =
      ((p.keyRules.find? fun r => c.scopeMatches (compileScope E r.scope)).map fun r =>
        r.toks.map (p.compileToken E)).getD [] := by
    rw [Pipeline.selectKeyTokens, Plan.pipeline, find?_map]
    simp only [Function.comp_def, hmatch]
    cases p.keyRules.find? fun r => c.scopeMatches (compileScope E r.scope) <;> rfl
  rw [selectKeyTokens, hfirst, hserver]
  cases hfind : p.keyRules.find? fun r => c.scopeMatches (compileScope E r.scope) with
  | some r => exact ⟨r.toks, hres.tokens r (mem_of_find?_eq_some hfind), rfl, rfl⟩
  | none =>
    -- a rule without a scope would have matched, so the recipe without one is the built-in one
    have hnone : p.keyRules.find? (fun r => r.scope.isNone) = none := by
      rw [find?_eq_none] at hfind ⊢
      intro r hr hscope
      refine hfind r hr ?_
      rw [isNone_iff_eq_none.mp hscope]
      rfl
    refine ⟨[.method, .host, .path], by simp [Plan.HasRef], ?_, rfl⟩
    have htoks : p.edgeKeyTokens = [.method, .host, .path] := by rw [Plan.edgeKeyTokens, hnone]
    have hkey : p.project.keyTokens = p.edgeKeyTokens.map p.projectToken := by
      change (if p.tokensFailClosed p.edgeKeyTokens then [] else _) = _
      rw [hdefault, if_neg Bool.false_ne_true]
    simp only [map_none, map_some, hkey, htoks]

theorem SameRequest.redirectHost (h : SameRequest r q) (p : Plan) :
    Edge.redirectHost p.project q = Cadish.redirectHost p.addresses r := by
  have htrusted (patterns : List Str) (host : Str) :
      trustedHostMatch patterns host = hostSetMatch patterns host := by
    simp only [trustedHostMatch, hostSetMatch, beq_eq_decide]
  rw [Edge.redirectHost, h.host, htrusted]
  rfl

theorem redirectEnv_eq (hs : SameContext c i) (hip : i.req.clientIP = c.req.clientIP)
    (hdevice : deviceOf p.project i.req = c.req.device) (hscheme : i.req.scheme = schemeOf tls)
    (capture capture' : List Str) : redirectEnv p.project i.req capture =
      { env p.addresses tls c.req capture' with capture := capture } := by
  have hr := hs.req
  rw [redirectEnv, env, hr.redirectHost p, hr.path, hr.canonicalQuery, hr.header, hip,
    hr.geo, hr.geoContinent, hr.geoRegion, hdevice, hr.query, hscheme]

theorem redirectCaptures_project {r : PlanRedirect} {q : Request}
    (hcap : ∀ src ∈ r.regex, Plan.CapturesAgree E js src q.path) {req : IReq}
    (hpath : req.path = q.path) :
    ((r.compile E).captures q = none ∧
        redirectCaptures js (Plan.projectRedirect r) req = some none) ∨
      ∃ g g', (r.compile E).captures q = some g' ∧
        redirectCaptures js (Plan.projectRedirect r) req = some (some g) ∧
        ∀ n, g.getD n [] = g'.getD n [] := by
  rw [captures, PlanRedirect.compile, redirectCaptures, Plan.projectRedirect]
  cases hregex : r.regex with
  | none => exact .inr ⟨[], [], rfl, rfl, fun _ => rfl⟩
  | some src =>
    obtain ⟨pat, flags, hsplit, hagree⟩ := hcap src hregex
    simp only [bind_some, hsplit, map_some, getD_some, hpath]
    by_cases hpat : pat = []
    · rw [if_pos hpat] at hagree ⊢
      obtain ⟨groups, hfind, hempty⟩ := hagree
      refine .inr ⟨[], groups, hfind, rfl, fun n => ?_⟩
      rw [getD_nil, getD_eq_getElem?_getD]
      cases hg : groups[n]? with
      | none => rfl
      | some g => exact (hempty g (mem_of_getElem? hg)).symm
    · rw [if_neg hpat] at hagree ⊢
      obtain ⟨re, hexec, heq⟩ := hagree
      rw [hexec, map_some, heq]
      cases hfind : E.find src q.path with
      | none => exact .inl ⟨rfl, rfl⟩
      | some g => exact .inr ⟨g, g, rfl, rfl, fun _ => rfl⟩

variable (hs : SameContext c i) (hp : p.Projectable)
  (hres : p.Resolved (Leaf.Agrees E js i.req i.respHeader) scopes) (hfits : p.Fits scopes depth)

include hs hp hres hfits

theorem classifyResolve_project {ref : Str} {cl : PlanClassifier} (hcl : p.classifiers.lookup ref = some cl) :
    classifyResolve p.project (matchOne js p.project i depth) ref =
      some ((cl.compile E).resolve c) := by
  rw [classifyResolve, Plan.lookup_classifiers, hcl]
  exact rowsResolve_project hs cl.rows _ ((hres.tables ref cl hcl).tableStands hp hcl)
    (hfits.tables ref cl hcl)

variable (hip : i.req.clientIP = c.req.clientIP) (hdevice : deviceOf p.project i.req = c.req.device)

include hip hdevice

theorem renderToken_project {t : PlanToken} (ht : p.HasRef t) :
    renderToken js p.project i depth (p.projectToken t) =
      some (writeToken c p.stickyCookie (p.compileToken E t)) := by
  have hr := hs.req
  cases t with
  | method => exact congrArg some hr.reqMethod
  | host => exact congrArg some (congrArg normalizeHost hr.host)
  | path => exact congrArg some (congrArg keyValue hr.path)
  | url =>
    simp only [renderToken, hr.path, hr.canonicalQuery]
    rfl
  | query => exact congrArg some (hr.canonicalQuery _ _)
  | queryAllow names =>
    simp only [Plan.projectToken, renderToken, hr.canonicalQuery, funext (nameGlobMatch_eq names)]
    rfl
  | queryStrip names =>
    simp only [renderToken, hr.canonicalQuery, nameGlobMatch_eq]
    rfl
  | header name => exact congrArg some (congrArg keyValue (hr.headerCombined name))
  | cookie name => exact congrArg some (congrArg keyValue (hr.cookieValue name))
  | sticky =>
    rw [Plan.projectToken, renderToken, hr.cookieValue, hip]
    rfl
  | device => exact congrArg some hdevice
  | geo => exact congrArg some hr.geo
  | geoContinent => exact congrArg some hr.geoContinent
  | geoRegion => exact congrArg some hr.geoRegion
  | normalize ref =>
    obtain ⟨n, hn⟩ := ht
    rw [Plan.compileToken, hn]
    exact congrArg some (hr.normalizeResolve hn)
  | classify ref =>
    obtain ⟨cl, hcl⟩ := ht
    rw [Plan.compileToken, hcl]
    exact classifyResolve_project hs hp hres hfits hcl
  | tenant =>
    have htenant : p.project.tenant = p.tenantResolver := rfl
    rw [Plan.projectToken, renderToken, htenant, Plan.compileToken]
    cases p.tenantResolver with
    | none => rfl
    | some t => exact congrArg some (hr.tenantResolve t)
  | literal text => rfl

theorem buildKey_project {toks : List PlanToken} (htoks : ∀ t ∈ toks, p.HasRef t) :
    buildKey js p.project i depth (toks.map p.projectToken) =
      some (Cadish.buildKey c p.stickyCookie (toks.map (p.compileToken E))) := by
  have hmap {l : List PlanToken} (hl : ∀ t ∈ l, p.HasRef t) :
      (l.map p.projectToken).mapM (renderToken js p.project i depth) =
        some ((l.map (p.compileToken E)).map (writeToken c p.stickyCookie)) := by
    induction l with
    | nil => rfl
    | cons t l ih =>
      rw [map_cons, mapM_cons,
        renderToken_project hs hp hres hfits hip hdevice (hl t mem_cons_self),
        ih fun t' ht' => hl t' (mem_cons_of_mem _ ht')]
      rfl
  -- the default tokens are tokens of a plan too
  obtain ⟨l, hl, hir, hserver⟩ : ∃ l : List PlanToken, (∀ t ∈ l, p.HasRef t) ∧
      irRecipeTokens (toks.map p.projectToken) = l.map p.projectToken ∧
        recipeTokens (toks.map (p.compileToken E)) = l.map (p.compileToken E) := by
    cases toks with
    | nil => exact ⟨[.method, .host, .path], by simp [Plan.HasRef], rfl, rfl⟩
    | cons t toks => exact ⟨t :: toks, htoks, rfl, rfl⟩
  rw [buildKey, hir, hmap hl, map_some, Cadish.buildKey, hserver]

theorem evalRedirect_project (hscheme : i.req.scheme = schemeOf tls) (hown : p.OwnTables) {r : PlanRedirect}
    (hr : r ∈ p.redirect) (hscope : r.scope ∈ scopes)
    (hcap : ∀ src ∈ r.regex, Plan.CapturesAgree E js src c.req.path) :
    evalRedirect js p.project i depth (Plan.projectRedirect r) =
      some ((r.compile E).eval p.addresses (p.classifierTable E) tls c) := by
  have hscopes : (Plan.projectRedirect r).scope.elim (some true) (scopeMatches js p.project i depth) =
      some (c.scopeMatches (compileScope E r.scope)) := by
    have hproj := scopeMatches_project hs r.scope
      (ConjNamed.scopeStands hp (hres.scopes _ hscope)) (hfits.scopes _ hscope)
    rw [Plan.projectRedirect]
    cases hsc : r.scope with
    | none => rfl
    | some ms =>
      rw [hsc] at hproj
      exact hproj
  -- a name of the template is that of the server's, tables included
  have hclassify (name : Str) (hname : name ∈ placeholders none r.target) (t : Str)
      (ht : name = lit "classify." ++ t) :
      (if hasTable p.project t then
        (classifyResolve p.project (matchOne js p.project i depth) t).map some
      else some none) = some (classifyResolver (p.classifierTable E) c t) := by
    have hlookup := p.lookup_classifiers t
    rw [classifyResolver, Plan.classifierTable, FinMap.lookup_mapVal]
    cases hcl : p.classifiers.lookup t with
    | some cl =>
      rw [hcl] at hlookup
      rw [if_pos (by rw [hasTable, hlookup]; rfl), classifyResolve_project hs hp hres hfits hcl]
      rfl
    | none =>
      rw [hcl] at hlookup
      rw [if_neg]
      · rfl
      · rw [hasTable, hlookup]
        intro htable
        have hproto : t ∈ objectPrototype := (by simpa using htable :
          _ ∧ t ∈ objectPrototype).2
        have hsome := hown r hr t hproto (ht ▸ hname)
        rw [hcl] at hsome
        cases hsome
  have hsc : (r.compile E).sc = compileScope E r.scope := rfl
  rw [evalRedirect, hscopes, eval, hsc]
  cases hmatch : c.scopeMatches (compileScope E r.scope) with
  | false => rw [if_pos rfl]
  | true =>
    rw [if_neg Bool.noConfusion]
    rcases redirectCaptures_project hcap hs.req.path with
      ⟨hnone, hcaptures⟩ | ⟨g, g', hsome, hcaptures, hgroups⟩
    · rw [hcaptures, if_pos hnone]
    · rw [hcaptures]
      dsimp only
      have hexpand : expandTemplateFrom (redirectEnv p.project i.req g) (fun t =>
          if hasTable p.project t then
            (classifyResolve p.project (matchOne js p.project i depth) t).map some
          else some none) none r.target =
          some (expandTemplate r.target (env p.addresses tls c.req g')
            (classifyResolver (p.classifierTable E) c)) := by
        rw [redirectEnv_eq hs hip hdevice hscheme g g']
        exact expandTemplateFrom_eq hgroups none r.target fun name hname =>
          templateNamed_eq hs.req.received (hclassify name hname)
      have htarget : (Plan.projectRedirect r).target = r.target := rfl
      rw [redirectTo, htarget, hexpand, hs.req.redirectHost p, hscheme, location, hsome]
      rfl

end Keys

/-! ## A projection without gaps -/

/-- Nothing of the request phase is left to the server. -/
structure Plan.NoGaps (p : Plan) : Prop where
  responds : ∀ r ∈ p.respond, ∃ path, r.1 = .path path
  redirects : ∀ r ∈ p.redirect, p.redirectDelegated r = false
  purges : p.purge = []
  upgrades : p.upgrade = []
  passes : ∀ s ∈ p.pass, p.failsClosed s = false
  routes : ∀ r ∈ p.route, p.failsClosed r.1 = false
  recipes : ∀ r ∈ p.keyRules, p.recipeFailsClosed r = false
  tokens : p.tokensFailClosed p.edgeKeyTokens = false
  closed : p.failOpenPass = false

theorem Plan.noGaps {p : Plan} (h : p.coverage = ⟨0, 0⟩) : p.NoGaps := by
  have hnone {α : Type} {f : α → Bool} {l : List α} (hcount : l.countP f = 0) :
      ∀ a ∈ l, f a = false := fun a ha => Bool.eq_false_iff.mpr (countP_eq_zero.mp hcount a ha)
  have hany {α : Type} {f : α → Bool} {l : List α} (hcount : l.countP f = 0) : l.any f = false :=
    List.any_eq_false.mpr fun a ha => countP_eq_zero.mp hcount a ha
  obtain ⟨hdelegated, hforced⟩ := Plan.Coverage.mk.inj h
  simp only [Nat.add_eq_zero_iff] at hdelegated hforced
  obtain ⟨⟨⟨⟨⟨⟨⟨-, hrespond⟩, -⟩, -⟩, hpurge⟩, -⟩, -⟩, hupgrade⟩ := hdelegated
  obtain ⟨⟨⟨⟨⟨⟨⟨⟨⟨hpass, hcredentialed⟩, hredirect⟩, hroute⟩, htoks⟩, hrecipes⟩, httl⟩, hstorage⟩,
    htier⟩, hupgrades⟩ := hforced
  have htokens : p.tokensFailClosed p.edgeKeyTokens = false := by
    by_contra htrue
    simp [Bool.eq_true_of_not_eq_false htrue] at htoks
  have hdelegates : p.redirect.any p.redirectDelegated = false := by
    by_contra htrue
    simp [Bool.eq_true_of_not_eq_false htrue] at hredirect
  refine ⟨fun r hr => ?_, fun r hr => Bool.eq_false_iff.mpr (List.any_eq_false.mp hdelegates r hr),
    length_eq_zero_iff.mp hpurge, length_eq_zero_iff.mp hupgrade, hnone hpass, hnone hroute,
    hnone hrecipes, htokens, ?_⟩
  · have hpath := hnone hrespond r hr
    cases hwhen : r.1 with
    | path path => exact ⟨path, rfl⟩
    | terms ts =>
      rw [hwhen] at hpath
      cases hpath
  · rw [failOpenPass, hany hpass, hany hcredentialed, hany hroute, htokens, hany hrecipes, hany httl,
      hany hstorage, hany htier, hany hupgrades]
    rfl

/-! ## Parity -/

section Parity

variable {E : Engines} {js : Js} {p : Plan} {depth : Nat} {req : Request} {tls : Bool}

theorem find_respond_project (hgaps : p.NoGaps) (E : Engines) (tls : Bool) (c : MatchContext) :
    (p.project.respond.find? fun r => c.req.path == r.1).map Prod.snd =
      ((p.pipeline E tls).respondRules.find? fun r => respondMatches c r.1).map Prod.snd := by
  have hresponds := hgaps.responds
  change ((p.respond.filterMap _).find? _).map _ = ((p.respond.map _).find? _).map _
  generalize p.respond = rs at hresponds
  induction rs with
  | nil => rfl
  | cons r rs ih =>
    obtain ⟨path, hpath⟩ := hresponds r mem_cons_self
    have ih := ih fun r' hr' => hresponds r' (mem_cons_of_mem _ hr')
    rw [filterMap_cons_some (by rw [hpath]), map_cons, find?_cons, find?_cons,
      hpath]
    have hmatch : respondMatches c (PlanRespond.compile E (.path path)) =
        (c.req.path == path) := rfl
    rw [hmatch]
    cases c.req.path == path with
    | true => rfl
    | false => exact ih

theorem sameContext_toIReq (h : Received req.header) (tls : Bool) (upstream : Str) :
    SameContext ⟨req, upstream, none⟩ ⟨toIReq req tls, upstream, none⟩ :=
  ⟨sameRequest_toIReq h tls, rfl, rfl, by simp⟩

variable (hp : p.Projectable) (hgaps : p.NoGaps) (hreceived : Received req.header)
  (hagrees : p.Agrees E js (toIReq req tls)) (hfits : p.Fits p.requestScopes depth)

include hp hgaps hreceived hagrees hfits

theorem resolveUpstream_project :
    resolveUpstream js p.project depth (toIReq req tls) =
      some ((p.pipeline E tls).resolveUpstream req) := by
  have hs := sameContext_toIReq hreceived tls []
  have hscope {r : PlanScope × Str} (hr : r ∈ p.route) : r.1 ∈ p.requestScopes := by
    simp only [Plan.requestScopes, append_assoc]
    exact mem_append_left _ (List.mem_map_of_mem hr)
  have hroute : p.project.route = p.route.map fun r => (projectScope r.1, r.2) := by
    change (p.route.filter fun r => !p.failsClosed r.1).map _ = _
    rw [filter_eq_self.mpr fun r hr => by rw [hgaps.routes r hr]; rfl]
  have hfirst : firstMatch js p.project ⟨toIReq req tls, [], none⟩ depth Prod.fst p.project.route =
      some ((p.route.find? fun r =>
        MatchContext.scopeMatches ⟨req, [], none⟩ (compileScope E r.1)).map fun r =>
          (projectScope r.1, r.2)) := by
    rw [hroute]
    exact firstMatch_project hs fun r hr => ⟨rfl,
      ConjNamed.scopeStands hp (hagrees.leaves.scopes _ (hscope hr)), hfits.scopes _ (hscope hr)⟩
  rw [resolveUpstream, hfirst, Pipeline.resolveUpstream, Plan.pipeline, find?_map]
  simp only [Function.comp_def]
  cases p.route.find? fun r => MatchContext.scopeMatches ⟨req, [], none⟩ (compileScope E r.1) <;> rfl

theorem firstRedirect_project (htables : p.OwnTables)
    (hdevice : deviceOf p.project (toIReq req tls) = req.device) (upstream : Str) :
    firstRedirect js p.project ⟨toIReq req tls, upstream, none⟩ depth p.project.redirect =
      some ((p.pipeline E tls).redirectRules.findSome? fun r => r ⟨req, upstream, none⟩) := by
  have hs := sameContext_toIReq hreceived tls upstream
  have hredirect : p.project.redirect = p.redirect.map Plan.projectRedirect := by
    change (p.redirect.takeWhile fun r => !p.redirectDelegated r).map _ = _
    rw [takeWhile_eq_self_iff.mpr fun r hr => by rw [hgaps.redirects r hr]; rfl]
  have heval {r : PlanRedirect} (hr : r ∈ p.redirect) :
      evalRedirect js p.project ⟨toIReq req tls, upstream, none⟩ depth (Plan.projectRedirect r) =
        some ((r.compile E).eval p.addresses (p.classifierTable E) tls ⟨req, upstream, none⟩) := by
    refine evalRedirect_project hs hp hagrees.leaves hfits rfl hdevice rfl htables hr ?_
      (hagrees.captures r hr)
    simp only [Plan.requestScopes, append_assoc]
    exact mem_append_right _ (mem_append_left _ (List.mem_map_of_mem hr))
  rw [hredirect, Plan.pipeline]
  rw [findSome?_map]
  generalize p.redirect = rs at heval
  induction rs with
  | nil => rfl
  | cons r rs ih =>
    rw [map_cons, firstRedirect, heval mem_cons_self, findSome?_cons, Function.comp_apply]
    cases (r.compile E).eval p.addresses (p.classifierTable E) tls ⟨req, upstream, none⟩ with
    | some rdr => rfl
    | none => exact ih fun hr' => heval (mem_cons_of_mem _ hr')

theorem firstPass_project (upstream : Str) :
    (firstMatch js p.project ⟨toIReq req tls, upstream, none⟩ depth id p.project.pass).map
        isSome =
      some (p.pass.any fun s =>
        MatchContext.scopeMatches ⟨req, upstream, none⟩ (compileScope E s)) := by
  have hs := sameContext_toIReq hreceived tls upstream
  have hscope {s : PlanScope} (h : s ∈ p.pass) : s ∈ p.requestScopes := by
    simp only [Plan.requestScopes, append_assoc]
    exact mem_append_right _ (mem_append_right _ (mem_append_left _ h))
  have hpass : p.project.pass = p.pass.map projectScope := by
    change p.native p.pass ++ p.native p.upgrade ++ (if p.failOpenPass then _ else []) = _
    rw [hgaps.closed, hgaps.upgrades, Plan.native,
      filter_eq_self.mpr fun s h => by rw [hgaps.passes s h]; rfl]
    simp [Plan.native]
  have hfirst : firstMatch js p.project ⟨toIReq req tls, upstream, none⟩ depth id p.project.pass =
      some ((p.pass.find? fun s =>
        MatchContext.scopeMatches ⟨req, upstream, none⟩ (compileScope E s)).map projectScope) := by
    rw [hpass]
    exact firstMatch_project hs fun s h => ⟨rfl,
      ConjNamed.scopeStands hp (hagrees.leaves.scopes _ (hscope h)), hfits.scopes _ (hscope h)⟩
  rw [hfirst, map_some, isSome_map]
  exact congrArg some (Bool.eq_iff_iff.mpr (by rw [find?_isSome, List.any_eq_true]))

end Parity

def regexEngines : Engines where
  find src s := (re2.compile {} src).bind fun r => if Regex.search r s then some [] else none
  json _ _ _ := false
  prefixes _ _ := false

def regexJs : Js where
  exec pattern flags :=
    (regExp pattern flags).map fun r s => if Regex.search r s then some [] else none
  json _ _ _ := false

def passing (src : Str) : Plan where
  matchers := (∅ : FinMap Str PlanMatcher).insert (lit "admin") (.leaf (.pathRegex src))
  pass := [some [(lit "admin", .leaf (.pathRegex src))]]
  defaultUpstream := lit "app"

theorem ownNames_passing (src : Str) : (passing src).OwnNames := by
  intro name m hlookup
  rw [passing, FinMap.lookup_insert_ite] at hlookup
  split at hlookup
  case isTrue hname =>
    rw [hname]
    decide
  case isFalse => cases hlookup

end Cadish.Edge
