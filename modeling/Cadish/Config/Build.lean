import Cadish.Config.Fingerprint
import Cadish.Pipeline.Compile
import Cadish.Server.Peer

/-!
# Building a site

`buildSite` compiles the pipeline of a site and binds the device classifier, the geo sources and the
trusted proxies to it. **A key depends on the lanes of the key plan and on what is bound, and on
nothing else** (`buildSite_sameKeying`). What a site reads from outside is a parameter.
-/

namespace Cadish

open Cadishfile List Option Item Pipeline BoundSite

structure Loader extends Grammar where
  /-- `geo.LoadCIDRTable`: the table of a file, if it can be read -/
  cidrTable : Str → Option (Option Addr → Str)
  /-- `geo.OpenMaxMind`: the country and the region of an address, by a database -/
  maxMind : Str → Option ((Option Addr → Str) × (Option Addr → Str))
  continent : Str → Str
  /-- the classifier of a `device_detect` block, or the one without a block -/
  deviceRules : Option (List Line) → Option (Str → Str)
  /-- whether the `cluster` directives make the site a member of a cluster -/
  membership : List Stmt → Option Bool
  live : Str → Bool

/-! ## Geo sources -/

inductive GeoSourceKind where
  | header
  | cidr
  | maxMind
deriving DecidableEq, Repr

structure GeoSourceSpec where
  kind : GeoSourceKind
  country : GeoSource
  region : Option GeoSource

structure GeoBlock where
  sources : List GeoSourceSpec := []
  region : Option GeoSource := none
  trusted : List AddrBlock := []

variable (l : Loader) (ds : List Stmt)

def buildGeoSource (words : List Word) : Option GeoSourceSpec :=
  match rawArgs words with
  | kind :: name :: _ => do
    guard (name ≠ [])
    if kind = lit "header" then some ⟨.header, .header name, none⟩
    else if kind = lit "cidr" then (l.cidrTable name).map fun t => ⟨.cidr, .address t, none⟩
    else if kind = lit "maxmind" then
      (l.maxMind name).map fun db => ⟨.maxMind, .address db.1, some (.address db.2)⟩
    else none
  | _ => none

def GeoBlock.line (b : GeoBlock) (ln : Line) : Option GeoBlock :=
  if ln.name = lit "source" then
    (buildGeoSource l ln.words).map fun s => { b with sources := b.sources ++ [s] }
  else if ln.name = lit "region_header" then
    match b.region, rawArgs ln.words with
    | none, [name] => if name = [] then none else some { b with region := some (.header name) }
    | _, _ => none
  else if ln.name = lit "trust_proxy" then do
    guard (ln.words ≠ [])
    let ps ← (rawArgs ln.words).mapM parsePrefix
    some { b with trusted := b.trusted ++ ps }
  else none

/-- `assembleGeoSources`: one source, or a database and a header, the second for want of an answer
of the first. -/
def assembleGeoSources : List GeoSourceSpec → Option (GeoSource × Option GeoSource)
  | [s] => some (s.country, s.region)
  | [a, b] =>
    if (a.kind = .maxMind ∧ b.kind = .header) ∨ (a.kind = .header ∧ b.kind = .maxMind) then
      some (.fallback a.country b.country, if a.kind = .maxMind then a.region else b.region)
    else none
  | _ => none

/-- What a site knows of places: the sources, and the proxies its `geo` block trusts. -/
structure GeoParts where
  country : Option GeoSource
  region : Option GeoSource
  trusted : List AddrBlock

def buildGeo : Option GeoParts :=
  match named (lit "geo") ds with
  | [] => some ⟨none, none, []⟩
  | [d] => do
    let lines ← d.block
    let b ← lines.foldlM (GeoBlock.line l) {}
    let (country, region) ← assembleGeoSources b.sources
    some ⟨some country, b.region.or region, b.trusted⟩
  | _ => none

def buildSiteTrustProxies : Option (List AddrBlock) := do
  let blocks ← (named (lit "trust_proxy") ds).mapM fun d => do
    guard (d.block.isNone ∧ d.words ≠ [])
    (rawArgs d.words).mapM parsePrefix
  some blocks.flatten

/-- `unionPrefixes`: the first of those that mask alike. -/
def unionPrefixes (a b : List AddrBlock) : List AddrBlock :=
  if a = [] then b
  else if b = [] then a
  else (a ++ b).foldl (fun out p => if out.any fun q => q.masked = p.masked then out else out ++ [p]) []

/-- `classify.FromSite`: of the one `device_detect` block, if there is one. -/
def deviceClassifier : Option (Str → Str) :=
  match named (lit "device_detect") ds with
  | [] => l.deviceRules none
  | [d] => do
    let lines ← d.block
    l.deviceRules (some lines)
  | _ => none

/-! ## The site -/

def buildSite (site : Site) : Option BoundSite := do
  let c ← compile l.toGrammar site.addresses site.items
  let ds := directives site.items
  let device ← deviceClassifier l ds
  let clustered ← l.membership (named (lit "cluster") ds)
  let geo ← buildGeo l ds
  let trusted ← buildSiteTrustProxies ds
  some
    { pipeline := c.pipeline
      trustedProxies := unionPrefixes geo.trusted trusted
      device := some device
      geo := geo.country
      geoRegion := geo.region
      continent := l.continent
      usesSecurityGate := c.pipeline.gate.hasSecurityGate
      usesDeviceClassification := c.usesDeviceClassification
      usesGeoToken := c.usesGeoToken
      poolHealthy := if c.needsPoolHealth then some l.live else none
      clustered := clustered }

/-! ## What a key is computed with -/

structure Pipeline.SameKeyRules (p p' : Pipeline) : Prop where
  respondRules : p.respondRules = p'.respondRules
  redirectRules : p.redirectRules = p'.redirectRules
  routeRules : p.routeRules = p'.routeRules
  defaultUpstream : p.defaultUpstream = p'.defaultUpstream
  keyRules : p.keyRules = p'.keyRules
  stickyCookie : p.stickyCookie = p'.stickyCookie
  cookieAllow : p.cookieAllow = p'.cookieAllow

namespace Pipeline.SameKeyRules

variable {p p' : Pipeline} (h : p.SameKeyRules p')
include h

theorem context_eq (req : Request) : p.context req none = p'.context req none := by
  rw [context, context, resolveUpstream, resolveUpstream, h.routeRules, h.defaultUpstream]

theorem filtered_eq (req : Request) : p.filtered req = p'.filtered req := by
  simp only [filtered, filterRequestCookies, derivedSurviveCookies, h.cookieAllow, h.keyRules]

theorem cacheKey_eq (req : Request) :
    (p.evalRequest req).cacheKey = (p'.evalRequest req).cacheKey := by
  simp only [evalRequest, selectKeyTokens, h.context_eq, h.respondRules,
    h.redirectRules, h.keyRules, h.stickyCookie]
  split
  · rfl
  · split <;> rfl

end Pipeline.SameKeyRules

structure BoundSite.SameKeying (s s' : BoundSite) : Prop extends
    Pipeline.SameKeyRules s.pipeline s'.pipeline where
  trustedProxies : s.trustedProxies = s'.trustedProxies
  device : s.device = s'.device
  geo : s.geo = s'.geo
  geoRegion : s.geoRegion = s'.geoRegion
  continent : s.continent = s'.continent
  clustered : s.clustered = s'.clustered
  usesSecurityGate : s.usesSecurityGate = s'.usesSecurityGate
  usesDeviceClassification : s.usesDeviceClassification = s'.usesDeviceClassification
  usesGeoToken : s.usesGeoToken = s'.usesGeoToken
  poolHealthy : s.poolHealthy = s'.poolHealthy

theorem BoundSite.SameKeying.cacheKey_eq {s s' : BoundSite} (h : s.SameKeying s')
    (addrString : Addr → Str) (r : HttpRequest) :
    s.cacheKey addrString r = s'.cacheKey addrString r := by
  have hreceived : s.received addrString r = s'.received addrString r := by
    simp only [received, buildPipelineRequest, unhopped,
      resolveGeo, resolveDevice, h.toSameKeyRules.filtered_eq, h.trustedProxies,
      h.device, h.geo, h.geoRegion, h.continent, h.clustered, h.usesSecurityGate,
      h.usesDeviceClassification, h.usesGeoToken, h.poolHealthy]
  rw [cacheKey, cacheKey, hreceived, h.toSameKeyRules.filtered_eq, h.toSameKeyRules.cacheKey_eq]

/-! ## What a site computes keys with -/

def uncoveredDirectives : List Str :=
  [lit "upstream", lit "cluster", lit "respond", lit "redirect", lit "route", lit "cookie_allow",
    lit "trust_proxy"]

/-- A statement that reaches a key and is not fingerprinted: also, every matcher definition. -/
def Cadishfile.Item.isUncovered (i : Item) : Bool := i.isMatcherDef || i.isNamed uncoveredDirectives

structure SameBeyond (a b : Site) : Prop where
  addresses : a.addresses = b.addresses
  items : a.items.filter isUncovered = b.items.filter isUncovered

/-- The same server passes run before the key. -/
structure BoundSite.SamePrepasses (s s' : BoundSite) : Prop where
  gate : s.usesSecurityGate = s'.usesSecurityGate
  device : s.usesDeviceClassification = s'.usesDeviceClassification
  geo : s.usesGeoToken = s'.usesGeoToken
  pools : s.poolHealthy.isSome = s'.poolHealthy.isSome

theorem filter_eq_of_filter {α : Type} {p q : α → Bool} {as bs : List α} (hpq : ∀ a, p a = true → q a = true)
    (h : as.filter q = bs.filter q) : as.filter p = bs.filter p := by
  have hfilter (l : List α) : l.filter p = (l.filter q).filter p := by
    rw [List.filter_filter]
    refine filter_congr fun a _ => ?_
    cases hp : p a with
    | false => rfl
    | true => rw [hpq a hp]; rfl
  rw [hfilter as, hfilter bs, h]

theorem isNamed_mono {names names' : List Str} (h : names ⊆ names') (i : Item)
    (hi : i.isNamed names = true) : i.isNamed names' = true := by
  cases i with
  | matcherDef name type words => cases hi
  | directive d => exact elem_iff.mpr (h (elem_iff.mp hi))

theorem named_directives (name : Str) (items : List Item) :
    named name (directives items) = directives (items.filter (isNamed [name])) := by
  induction items with
  | nil => rfl
  | cons i items ih =>
    cases i with
    | matcherDef _ _ _ => exact ih
    | directive d =>
      rw [filter_cons]
      by_cases hd : d.name = name
      · rw [if_pos (show isNamed [name] (.directive d) = true from
          elem_iff.mpr (mem_singleton.mpr hd))]
        simp only [directives, named, filterMap_cons, filter_cons, hd]
        exact congrArg (d :: ·) ih
      · rw [if_neg (show ¬ isNamed [name] (.directive d) = true from
          fun h => hd (mem_singleton.mp (elem_iff.mp h)))]
        simp only [directives, named, filterMap_cons, filter_cons, hd, decide_false]
        exact ih

section Same

variable {a b : Site} (hvocab : a.items.filter (isNamed cacheKeyVocabDirectives) =
  b.items.filter (isNamed cacheKeyVocabDirectives)) (hbeyond : SameBeyond a b)

include hvocab in
theorem vocab_named {names : List Str} (h : names ⊆ cacheKeyVocabDirectives) :
    a.items.filter (isNamed names) = b.items.filter (isNamed names) :=
  filter_eq_of_filter (isNamed_mono h) hvocab

include hbeyond in
theorem beyond_named {names : List Str} (h : names ⊆ uncoveredDirectives) :
    a.items.filter (isNamed names) = b.items.filter (isNamed names) := by
  refine filter_eq_of_filter (fun i hi => ?_) hbeyond.items
  rw [isUncovered, isNamed_mono h i hi, Bool.or_true]

include hvocab hbeyond

theorem sameNames : SameNames a.items b.items where
  matchers := by
    refine filter_eq_of_filter (fun i hi => ?_) hbeyond.items
    rw [isUncovered, hi, Bool.true_or]
  upstreams := beyond_named hbeyond (by simp [uncoveredDirectives])
  normalizers := vocab_named hvocab (by simp [cacheKeyVocabDirectives])
  classifiers := vocab_named hvocab (by simp [cacheKeyVocabDirectives])
  tenants := vocab_named hvocab (by simp [cacheKeyVocabDirectives])

theorem sameKeyPlan : SameKeyPlan a.items b.items where
  respond := beyond_named hbeyond (by simp [uncoveredDirectives])
  redirect := beyond_named hbeyond (by simp [uncoveredDirectives])
  route := beyond_named hbeyond (by simp [uncoveredDirectives])
  recipes := vocab_named hvocab (by simp [cacheKeyVocabDirectives])
  cookies := beyond_named hbeyond (by simp [uncoveredDirectives])

theorem buildSite_sameKeying {l : Loader} {s s' : BoundSite} (hs : buildSite l a = some s)
    (hs' : buildSite l b = some s') (hpass : s.SamePrepasses s') : s.SameKeying s' := by
  have hdevice : named (lit "device_detect") (directives a.items) =
      named (lit "device_detect") (directives b.items) := by
    rw [named_directives, named_directives, vocab_named hvocab (by simp [cacheKeyVocabDirectives])]
  have hgeo : named (lit "geo") (directives a.items) = named (lit "geo") (directives b.items) := by
    rw [named_directives, named_directives, vocab_named hvocab (by simp [cacheKeyVocabDirectives])]
  have htrust : named (lit "trust_proxy") (directives a.items) =
      named (lit "trust_proxy") (directives b.items) := by
    rw [named_directives, named_directives, beyond_named hbeyond (by simp [uncoveredDirectives])]
  have hcluster : named (lit "cluster") (directives a.items) =
      named (lit "cluster") (directives b.items) := by
    rw [named_directives, named_directives, beyond_named hbeyond (by simp [uncoveredDirectives])]
  obtain ⟨c, hc, hs⟩ := bind_eq_some_iff.mp hs
  obtain ⟨c', hc', hs'⟩ := bind_eq_some_iff.mp hs'
  rw [← hbeyond.addresses] at hc'
  obtain ⟨hnames, hplan⟩ := compile_eq (sameNames hvocab hbeyond) (sameKeyPlan hvocab hbeyond) hc hc'
  simp only [deviceClassifier, buildGeo, buildSiteTrustProxies, hdevice, hgeo, htrust, hcluster] at hs
  obtain ⟨device, hdev, hs⟩ := bind_eq_some_iff.mp hs
  obtain ⟨device', hdev', hs'⟩ := bind_eq_some_iff.mp hs'
  obtain rfl := some.inj (hdev.symm.trans hdev')
  obtain ⟨member, hmem, hs⟩ := bind_eq_some_iff.mp hs
  obtain ⟨member', hmem', hs'⟩ := bind_eq_some_iff.mp hs'
  obtain rfl := some.inj (hmem.symm.trans hmem')
  obtain ⟨geo, hgeo, hs⟩ := bind_eq_some_iff.mp hs
  obtain ⟨geo', hgeo', hs'⟩ := bind_eq_some_iff.mp hs'
  obtain rfl := some.inj (hgeo.symm.trans hgeo')
  obtain ⟨trusted, htrusted, hs⟩ := bind_eq_some_iff.mp hs
  obtain ⟨trusted', htrusted', hs'⟩ := bind_eq_some_iff.mp hs'
  obtain rfl := some.inj (htrusted.symm.trans htrusted')
  obtain rfl := some.inj hs
  obtain rfl := some.inj hs'
  have hpools : c.needsPoolHealth = c'.needsPoolHealth := by
    have hsome (needs : Bool) : (if needs then some l.live else none).isSome = needs := by
      cases needs <;> rfl
    exact (hsome _).symm.trans (hpass.pools.trans (hsome _))
  exact
    { respondRules := congrArg KeyPlan.respondRules hplan
      redirectRules := congrArg (fun k => k.redirectRules.map (·.eval)) hplan
      routeRules := congrArg KeyPlan.routeRules hplan
      defaultUpstream := rfl
      keyRules := congrArg KeyPlan.keyRules hplan
      stickyCookie := congrArg Vocabulary.stickyCookie hnames
      cookieAllow := congrArg KeyPlan.cookieAllow hplan
      trustedProxies := rfl, device := rfl, geo := rfl, geoRegion := rfl, continent := rfl
      clustered := rfl
      usesSecurityGate := hpass.gate
      usesDeviceClassification := hpass.device
      usesGeoToken := hpass.geo
      poolHealthy := congrArg (fun needs => if needs = true then some l.live else none) hpools }

end Same

end Cadish
