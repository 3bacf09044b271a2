import Cadish.Server.Outbound

/-!
# From one node to another

A request that lands on a node which does not own its object is sent on to the owner
(`clusterRoute`), or the owner is asked before the origin is (`PeerOrigin.Fetch`). **An input
crosses when the other node reads the same from the message** (`SeenAlike`), and then it has the
same value there (`seenAlike_agrees`).
-/

namespace Cadish

open Option Pipeline GeoSource Header

/-! ## Messages -/

inductive ClusterMode where
  | readThrough
  | owner
deriving DecidableEq, Repr

inductive ClusterFallback where
  | degraded
  | strict
deriving DecidableEq, Repr

/-- `cluster.Membership`, with the ring as the functions it answers. -/
structure Membership where
  region : Str
  self : Str
  mode : ClusterMode
  /-- what to do without a healthy owner -/
  fallback : ClusterFallback
  owner : Str → Option Str
  intendedOwner : Str → Option Str

structure PeerLink where
  authority : Str
  basePath : Str
  addr : Str
  agent : Str
  tls : Bool

def writtenFields : List Str :=
  [lit "Host", lit "Content-Length", lit "Transfer-Encoding", lit "Trailer"]

/-- The User-Agent field with one value, or without any if that is empty. -/
def Header.setAgent (h : Header) (agent : Str) : Header :=
  if agent = [] then h.del (lit "User-Agent") else h.set (lit "User-Agent") agent

/-- A header as the client library of `net/http` sends it: with a user agent, and asking for gzip
when the request has no wish of its own. -/
def wireHeader (agent method : Str) (h : Header) : Header :=
  let out : Header := h.filter fun key _ => !writtenFields.elem key
  let out := out.setAgent
    (if h.present (lit "User-Agent") then h.get (lit "User-Agent") else agent)
  if h.get (lit "Accept-Encoding") = [] ∧ h.get (lit "Range") = [] ∧ method ≠ lit "HEAD" then
    out.insert (lit "Accept-Encoding") (h.values (lit "Accept-Encoding") ++ [lit "gzip"])
  else out

variable (m : Membership) (link : PeerLink) (o : OriginRequest)

/-- The peer `clusterRoute` sends a request to, if any. -/
def Membership.target (hdr : Header) (method ownerKey : Str) : Option Str :=
  if (hdr.get hopHeader ≠ [] ∧ hdr.get hopHeader = m.region) ∨ m.mode ≠ .owner ∨
      (method ≠ lit "GET" ∧ method ≠ lit "HEAD") then none
  else
    match m.owner ownerKey with
    | some o => if o = m.self then none else some o
    | none =>
      match m.fallback with
      | .strict => none
      | .degraded => (m.intendedOwner ownerKey).filter (· ≠ m.self)

/-- A request on its way to a peer: the hop is stamped, and the client library sends it. -/
def Membership.send (w : HttpRequest) : HttpRequest :=
  { w with
    header := wireHeader link.agent w.method (w.header.set hopHeader m.region)
    remoteAddr := link.addr
    tls := link.tls }

/-- The request `httporigin` makes for an object, by its path under the base URL. -/
def OriginRequest.toHttp (link : PeerLink) (path : Str) : HttpRequest :=
  { method := if o.method = [] then lit "GET" else o.method
    host := if o.clientHost = [] then link.authority else o.clientHost
    urlHost := []
    path := path
    rawQuery := o.rawQuery
    header := o.header
    remoteAddr := link.addr
    tls := link.tls }

/-- `PeerOrigin.Fetch`, up to the response: the request that is sent to a peer, unless the fetch
is declined. -/
def Membership.peerFetch : Option HttpRequest :=
  if o.bypass ∨ (o.method ≠ [] ∧ o.method ≠ lit "GET" ∧ o.method ≠ lit "HEAD") ∨
      o.header.get hopHeader ≠ [] ∨ (m.self ≠ [] ∧ m.owner o.key = some m.self) then none
  else (urlFor link.basePath o.key).map fun path => m.send link (o.toHttp link path)

namespace BoundSite

variable (addrString : Addr → Str) (site : BoundSite)

variable (m : Membership) (link : PeerLink) (r : HttpRequest)

def origClientCookie : Str :=
  (canonicalizeRequestCookies (site.unhopped r)).get (lit "Cookie")

def credentialed : Bool :=
  site.pipeline.cacheCredentialedMatches
    (site.pipeline.context (site.pipeline.forwarded (site.received addrString r)) none)

/-- The header `proxyToPeer` makes from the client's: without the hop's own fields, with the
client address in the place of a chain, and with the client's own cookies if they are the
origin's business. -/
def peerHeader : Header :=
  let sent := site.sentHeader addrString r
  let out : Header := sent.filter fun key _ => !(hopByHop.elem key || key == lit "Host")
  let out := match Cadish.clientIP r.remoteAddr sent site.trustedProxies with
    | some ip => out.set (lit "X-Forwarded-For") (addrString ip)
    | none => out
  if site.credentialed addrString r then setCookieField out (site.origClientCookie r) else out

/-- The request `proxyToPeer` makes, but for the hop. -/
def peerRequest : HttpRequest :=
  { method := r.method
    host := if r.host = [] then link.authority else r.host
    urlHost := []
    path := link.basePath ++ if r.path = [] then lit "/" else r.path
    rawQuery := r.rawQuery
    header := site.peerHeader addrString r
    remoteAddr := link.addr
    tls := link.tls }

/-- `proxyToPeer`, up to the response: the request that is sent to the owner. -/
def proxyToPeer : HttpRequest :=
  m.send link (site.peerRequest addrString link r)

/-- `clusterRoute`: the request that is sent to another node, if the request is not served
here. -/
def clusterRoute (link : Str → PeerLink) (r : HttpRequest) : Option HttpRequest :=
  (m.target (site.sentHeader addrString r) r.method (site.received addrString r).path).map fun peer =>
    site.proxyToPeer addrString m (link peer) r

def cacheKey : Str :=
  (site.pipeline.evalRequest (site.pipeline.filtered (site.received addrString r))).cacheKey

/-- The same site on another node: all but the liveness of the pools is the configuration's. -/
def onPeer (pools : Option (Str → Bool)) : BoundSite := { site with poolHealthy := pools }

end BoundSite

/-! ## What a node reads from a request -/

/-- The cookies the engine sees for a Cookie line: those the filter leaves, as they are written
back. -/
def Pipeline.cookiesOf (p : Pipeline) (line : Str) : List CookieKV :=
  parseLenientCookies ((p.filterRequestCookies line).getD line)

variable (h : Header) {key n : Str}

theorem Header.lookup_set_ne (value : Str) (hne : key ≠ canonicalKey n) :
    (h.set n value).lookup key = h.lookup key := AList.lookup_insert_ne hne

theorem Header.lookup_del_ne (hne : key ≠ canonicalKey n) :
    (h.del n).lookup key = h.lookup key := AList.lookup_erase_ne hne

theorem Header.get_of_lookup_eq {h h' : Header} {name : Str}
    (heq : h.lookup (canonicalKey name) = h'.lookup (canonicalKey name)) : h.get name = h'.get name := by
  rw [get, get, values, values, heq]

theorem canonicalizeRequestCookies_lookup (hne : key ≠ lit "Cookie") :
    (canonicalizeRequestCookies h).lookup key = h.lookup key := by
  rw [canonicalizeRequestCookies_eq]
  split
  · rfl
  · exact AList.lookup_insert_ne hne

theorem canonicalizeRequestCookies_get :
    (canonicalizeRequestCookies h).get (lit "Cookie") = h.cookieLine := by
  rw [canonicalizeRequestCookies_eq]
  split
  case isTrue hnone =>
    rw [Header.get, cookieLine, hnone]
    rfl
  case isFalse => rfl

namespace Pipeline

variable {p : Pipeline}

theorem filtered_lookup (req : Request) {key : Str} (hne : key ≠ lit "Cookie") :
    (p.filtered req).header.lookup key = req.header.lookup key := by
  rw [filtered]
  split
  · exact setCookieField_lookup _ _ hne
  · rfl

theorem forwarded_lookup (req : Request) {key : Str} (hne : key ≠ lit "Cookie") :
    (p.forwarded req).header.lookup key = req.header.lookup key := by
  rw [forwarded]
  simp only [stripDerivedCookies]
  split
  · exact (setCookieField_lookup _ _ hne).trans (filtered_lookup req hne)
  · exact filtered_lookup req hne

theorem lenientCookies_filtered {req : Request}
    (hone : (req.header.values (lit "Cookie")).length ≤ 1) :
    lenientCookies (p.filtered req).header = p.cookiesOf (req.header.get (lit "Cookie")) := by
  rw [filtered, cookiesOf]
  cases p.filterRequestCookies (req.header.get (lit "Cookie")) with
  | none => exact lenientCookies_of_one_line hone
  | some v => exact lenientCookies_setCookieField req.header v

theorem filtered_eq (req : Request) : ∃ h, p.filtered req = { req with header := h } := by
  rw [filtered]
  split
  · exact ⟨_, rfl⟩
  · exact ⟨req.header, rfl⟩

end Pipeline

theorem clientIP_congr {remoteAddr : Str} {hdr hdr' : Header} {trusted : List AddrBlock}
    (h : hdr.lookup (lit "X-Forwarded-For") = hdr'.lookup (lit "X-Forwarded-For")) :
    clientIP remoteAddr hdr trusted = clientIP remoteAddr hdr' trusted := by
  have hfor : forwardedFor hdr = forwardedFor hdr' := by
    rw [forwardedFor, forwardedFor, forwardedElements, forwardedElements, values,
      values, canonicalKey_forwardedFor, h]
  rw [clientIP, clientIP, hfor]

theorem GeoSource.lookup_congr {ip : Option Addr} {hdr hdr' : Option Header} {s : GeoSource}
    (h : ∀ name ∈ s.fields, hdr.map (·.get name) = hdr'.map (·.get name)) :
    s.lookup ip hdr = s.lookup ip hdr' := by
  induction s with
  | header name =>
    have hget := h name (List.mem_singleton_self _)
    rcases hdr with _ | hdr <;> rcases hdr' with _ | hdr'
    · rfl
    · cases hget
    · cases hget
    · have hvalue : hdr.get name = hdr'.get name := some.inj hget
      rw [lookup, lookup, hvalue]
  | address table => rfl
  | fallback primary secondary ihp ihs =>
    have hprimary := ihp fun n hn => h n (by simp [fields, hn])
    have hsecondary := ihs fun n hn => h n (by simp [fields, hn])
    rw [lookup, lookup, hprimary, hsecondary]

namespace BoundSite

section Seen

variable (addrString : Addr → Str) (site : BoundSite) (r r' : HttpRequest)

def geoFields : List Str :=
  (site.geo.map fields).getD [] ++ (site.geoRegion.map fields).getD []

/-- Two nodes read the same field. For the Cookie field that is the filtered line, and the line of
a site without a filter must not be empty. -/
def FieldAlike (key : Str) : Prop :=
  if key = lit "Cookie" then
    let line := (site.pipeline.filterRequestCookies r.header.cookieLine).getD r.header.cookieLine
    line = (site.pipeline.filterRequestCookies r'.header.cookieLine).getD r'.header.cookieLine ∧
      (line ≠ [] ∨ site.pipeline.cookieAllow.isSome)
  else (site.unhopped r).lookup key = (site.unhopped r').lookup key

def AddressAlike : Prop :=
  site.trustedProxies.isEmpty = false ∧
    ∃ ip, Cadish.clientIP r.remoteAddr r.header site.trustedProxies = some ip ∧
      Cadish.clientIP r'.remoteAddr r'.header site.trustedProxies = some ip

def GeoAlike : Prop :=
  site.usesGeoToken = false ∨ site.geo = none ∨
    (site.AddressAlike r r' ∧
      (site.geoFields = [] ∨ peerTrusted r.remoteAddr site.trustedProxies =
        peerTrusted r'.remoteAddr site.trustedProxies) ∧
      ∀ name ∈ site.geoFields, canonicalKey name ≠ lit "Cookie" ∧
        site.FieldAlike r r' (canonicalKey name))

/-- **What crosses**: an input that two nodes read alike from two requests. The upstream is
decided by the other inputs. -/
def SeenAlike (pools : Option (Str → Bool)) : Input → Prop
  | .method => r.method = r'.method
  | .host => (if r.host = [] then r.urlHost else r.host) = if r'.host = [] then r'.urlHost else r'.host
  | .path => normalizePath r.path = normalizePath r'.path
  | .query => r.rawQuery = r'.rawQuery
  | .field name => site.FieldAlike r r' (canonicalKey name)
  | .cookie name => (site.pipeline.cookiesOf r.header.cookieLine).find? (·.name = name) =
    (site.pipeline.cookiesOf r'.header.cookieLine).find? (·.name = name)
  | .cookies pre => ∀ name, Str.hasPrefix name pre = true →
    (site.pipeline.cookiesOf r.header.cookieLine).find? (·.name = name) =
      (site.pipeline.cookiesOf r'.header.cookieLine).find? (·.name = name)
  | .clientIP => site.AddressAlike r r'
  | .realClientIP => site.usesSecurityGate = false ∨ site.AddressAlike r r'
  | .device => site.usesDeviceClassification = false ∨ site.device = none ∨
    r.header.get (lit "User-Agent") = r'.header.get (lit "User-Agent")
  | .geo _ => site.GeoAlike r r'
  | .pools => site.poolHealthy = pools
  | .upstream | .response => True

variable {addrString site r r'}

theorem unhopped_lookup {key : Str} (hne : key ≠ hopHeader) :
    (site.unhopped r).lookup key = r.header.lookup key := by
  rw [unhopped]
  split
  · exact r.header.lookup_del_ne (by rwa [show canonicalKey hopHeader = hopHeader by decide])
  · rfl

theorem cookieLine_unhopped : (site.unhopped r).cookieLine = r.header.cookieLine := by
  rw [cookieLine, cookieLine, values, values,
    unhopped_lookup (by decide)]

theorem received_lookup {key : Str} (hne : key ≠ lit "Cookie") :
    (site.received addrString r).header.lookup key = (site.unhopped r).lookup key := by
  rw [received_header]
  exact canonicalizeRequestCookies_lookup _ hne

theorem received_cookie : (site.received addrString r).header.get (lit "Cookie") =
    r.header.cookieLine := by
  rw [received_header, canonicalizeRequestCookies_get, cookieLine_unhopped]

theorem received_one_line :
    ((site.received addrString r).header.values (lit "Cookie")).length ≤ 1 := by
  rw [received_header]
  exact canonicalizeRequestCookies_one_line _

variable (addrString site r) in
theorem evaluated_eq :
    ∃ h device geo continent region,
      site.pipeline.filtered (site.received addrString r) =
        { site.buildPipelineRequest addrString r (canonicalizeRequestCookies (site.unhopped r)) with
          header := h, device := device, geo := geo, geoContinent := continent
          geoRegion := region } := by
  obtain ⟨device, geo, continent, region, hreceived⟩ := @received_eq addrString site r
  obtain ⟨h, hfiltered⟩ := site.pipeline.filtered_eq (site.received addrString r)
  exact ⟨h, device, geo, continent, region, by rw [hfiltered, hreceived]⟩

theorem evaluated_device :
    (site.pipeline.filtered (site.received addrString r)).device =
      ((if site.usesDeviceClassification then site.device else none).map fun classify =>
        classify (r.header.get (lit "User-Agent"))).getD [] := by
  have hgeo (hdr : Header) (req : Request) : (site.resolveGeo r hdr req).device = req.device := by
    rw [resolveGeo]
    split <;> rfl
  have hagent : (canonicalizeRequestCookies (site.unhopped r)).get (lit "User-Agent") =
      r.header.get (lit "User-Agent") := by
    refine get_of_lookup_eq ?_
    rw [canonicalizeRequestCookies_lookup _ (by decide), unhopped_lookup (by decide)]
  obtain ⟨h, hfiltered⟩ := site.pipeline.filtered_eq (site.received addrString r)
  rw [hfiltered, ← hagent]
  simp only [received, hgeo]
  rw [resolveDevice]
  split
  case h_1 hnone =>
    rw [hnone]
    rfl
  case h_2 classify hsome =>
    rw [hsome]
    rfl

def geoClass (site : BoundSite) (r : HttpRequest) (hdr : Header) (gran : GeoGranularity) : Str :=
  ((if site.usesGeoToken then site.geo else none).map fun source =>
    let ip := Cadish.clientIP r.remoteAddr hdr site.trustedProxies
    let hdr := if peerTrusted r.remoteAddr site.trustedProxies then some hdr else none
    match gran with
    | .country => source.lookup ip hdr
    | .continent => site.continent (source.lookup ip hdr)
    | .region => (site.geoRegion.map fun s => s.lookup ip hdr).getD []).getD []

variable (addrString site r) in
def geoHeader : Header :=
  let req := site.buildPipelineRequest addrString r (canonicalizeRequestCookies (site.unhopped r))
  if site.usesSecurityGate then req.header else (site.pipeline.filtered req).header

theorem geoHeader_lookup {key : Str} (hne : key ≠ lit "Cookie") :
    (site.geoHeader addrString r).lookup key = (site.unhopped r).lookup key := by
  simp only [geoHeader]
  split
  · exact canonicalizeRequestCookies_lookup _ hne
  · rw [filtered_lookup _ hne]
    exact canonicalizeRequestCookies_lookup _ hne

theorem evaluated_geo :
    (site.pipeline.filtered (site.received addrString r)).geo =
        site.geoClass r (site.geoHeader addrString r) .country ∧
      (site.pipeline.filtered (site.received addrString r)).geoContinent =
        site.geoClass r (site.geoHeader addrString r) .continent ∧
      (site.pipeline.filtered (site.received addrString r)).geoRegion =
        site.geoClass r (site.geoHeader addrString r) .region := by
  have hdevice (req : Request) : (site.resolveDevice req).geo = req.geo ∧
      (site.resolveDevice req).geoContinent = req.geoContinent ∧
      (site.resolveDevice req).geoRegion = req.geoRegion := by
    rw [resolveDevice]
    split <;> exact ⟨rfl, rfl, rfl⟩
  obtain ⟨h, hfiltered⟩ := site.pipeline.filtered_eq (site.received addrString r)
  rw [hfiltered]
  simp only [received, geoClass]
  rw [resolveGeo]
  split
  case h_1 hnone =>
    obtain ⟨hgeo, hcontinent, hregion⟩ := hdevice (site.buildPipelineRequest addrString r
      (canonicalizeRequestCookies (site.unhopped r)))
    rw [hgeo, hcontinent, hregion, hnone]
    exact ⟨rfl, rfl, rfl⟩
  case h_2 source hsome =>
    rw [hsome]
    exact ⟨rfl, rfl, rfl⟩

theorem clientIP_of_lookup {hdr : Header} (h : ∀ {key : Str}, key ≠ lit "Cookie" →
    hdr.lookup key = (site.unhopped r).lookup key) :
    Cadish.clientIP r.remoteAddr hdr site.trustedProxies =
      Cadish.clientIP r.remoteAddr r.header site.trustedProxies := by
  refine clientIP_congr ?_
  rw [h (by decide), unhopped_lookup (by decide)]

theorem geoClass_alike (h : site.GeoAlike r r') (gran : GeoGranularity) :
    site.geoClass r (site.geoHeader addrString r) gran =
      site.geoClass r' (site.geoHeader addrString r') gran := by
  have hip := @clientIP_of_lookup site r _ (@geoHeader_lookup addrString site r)
  have hip' := @clientIP_of_lookup site r' _ (@geoHeader_lookup addrString site r')
  rcases h with hno | hnone | ⟨⟨-, ip, haddr, haddr'⟩, htrust, hfields⟩
  · simp [geoClass, hno]
  · simp [geoClass, hnone]
  -- the sources get the same address, and the same of what they read in the header
  have hread : ∀ name ∈ site.geoFields,
      (if peerTrusted r.remoteAddr site.trustedProxies then some (site.geoHeader addrString r)
        else none).map (·.get name) =
      (if peerTrusted r'.remoteAddr site.trustedProxies then some (site.geoHeader addrString r')
        else none).map (·.get name) := by
    intro name hname
    obtain ⟨hcookie, hfield⟩ := hfields name hname
    have hget : (site.geoHeader addrString r).get name = (site.geoHeader addrString r').get name := by
      refine get_of_lookup_eq ?_
      rw [FieldAlike, if_neg hcookie] at hfield
      rw [geoHeader_lookup hcookie, geoHeader_lookup hcookie, hfield]
    rcases htrust with hempty | htrust
    · rw [hempty] at hname
      cases hname
    · rw [htrust]
      split
      · rw [map_some, map_some, hget]
      · rfl
  have hsource {source : GeoSource} (hs : source.fields ⊆ site.geoFields) (ip : Option Addr) :
      source.lookup ip (if peerTrusted r.remoteAddr site.trustedProxies
        then some (site.geoHeader addrString r) else none) =
      source.lookup ip (if peerTrusted r'.remoteAddr site.trustedProxies
        then some (site.geoHeader addrString r') else none) :=
    lookup_congr fun name hname => hread name (hs hname)
  rw [geoClass, geoClass, hip, hip', haddr, haddr']
  cases site.usesGeoToken with
  | false => rfl
  | true =>
    cases hgeo : site.geo with
    | none => rfl
    | some source =>
      have hsub : source.fields ⊆ site.geoFields := fun n hn => by simp [geoFields, hgeo, hn]
      cases gran with
      | country => exact hsource hsub _
      | continent => exact congrArg site.continent (hsource hsub _)
      | region =>
        cases hr : site.geoRegion with
        | none => rfl
        | some source' => exact hsource (fun n hn => by simp [geoFields, hr, hn]) _

theorem evaluated_cookie
    (h : (site.pipeline.filterRequestCookies r.header.cookieLine).getD r.header.cookieLine ≠ [] ∨
      site.pipeline.cookieAllow.isSome) :
    (site.pipeline.filtered (site.received addrString r)).header.lookup (lit "Cookie") =
      let line := (site.pipeline.filterRequestCookies r.header.cookieLine).getD r.header.cookieLine
      if line = [] then none else some [line] := by
  have hkey : canonicalKey (lit "Cookie") = lit "Cookie" := by decide
  have hline := @received_cookie addrString site r
  rw [filtered, hline]
  cases hallow : site.pipeline.cookieAllow with
  | some allow =>
    obtain ⟨v, hv⟩ : ∃ v, site.pipeline.filterRequestCookies r.header.cookieLine = some v :=
      ⟨_, by rw [filterRequestCookies, hallow]; rfl⟩
    simp only [hv, getD_some, setCookieField]
    split
    · rw [del, hkey, AList.lookup_erase]
    · rw [Header.set, hkey, AList.lookup_insert]
  | none =>
    have hnone : site.pipeline.filterRequestCookies r.header.cookieLine = none := by
      rw [filterRequestCookies, hallow]
      rfl
    have hne : r.header.cookieLine ≠ [] := by simpa [hnone, hallow] using h
    simp only [hnone, getD_none, if_neg hne]
    -- the one line of the request is not empty, so the field is there
    have hone := @received_one_line addrString site r
    rw [← hline, Header.get, Header.values, hkey] at hne
    rw [Header.get, Header.values, hkey] at hline
    rw [values, hkey] at hone
    cases hl : (site.received addrString r).header.lookup (lit "Cookie") with
    | none =>
      rw [hl] at hne
      exact absurd rfl hne
    | some lines =>
      rw [hl] at hline hne hone
      rcases lines with _ | ⟨l, _ | ⟨l', ls⟩⟩
      · exact absurd rfl hne
      · rw [← hline]
        rfl
      · simp at hone

theorem onPeer_evaluated (pools : Option (Str → Bool)) :
    site.pipeline.filtered ((site.onPeer pools).received addrString r) =
      { site.pipeline.filtered (site.received addrString r) with poolHealthy := pools } := by
  have hfiltered (req : Request) : site.pipeline.filtered { req with poolHealthy := pools } =
      { site.pipeline.filtered req with poolHealthy := pools } := by
    simp only [filtered]
    cases site.pipeline.filterRequestCookies (req.header.get (lit "Cookie")) <;> rfl
  have hdevice (req : Request) : (site.onPeer pools).resolveDevice { req with poolHealthy := pools } =
      { site.resolveDevice req with poolHealthy := pools } := by
    cases hu : site.usesDeviceClassification <;> cases hd : site.device <;>
      simp [resolveDevice, onPeer, hu, hd]
  have hgeo (hdr : Header) (req : Request) :
      (site.onPeer pools).resolveGeo r hdr { req with poolHealthy := pools } =
        { site.resolveGeo r hdr req with poolHealthy := pools } := by
    cases hu : site.usesGeoToken <;> cases hg : site.geo <;> simp [resolveGeo, onPeer, hu, hg]
  have hbuild (hdr : Header) : (site.onPeer pools).buildPipelineRequest addrString r hdr =
      { site.buildPipelineRequest addrString r hdr with poolHealthy := pools } := rfl
  have hpipeline : (site.onPeer pools).pipeline = site.pipeline := rfl
  have hgate : (site.onPeer pools).usesSecurityGate = site.usesSecurityGate := rfl
  have hunhopped : (site.onPeer pools).unhopped r = site.unhopped r := rfl
  simp only [received, hunhopped, hbuild, hpipeline, hgate, hfiltered, hdevice, hgeo]

theorem seenAlike_evaluated {pools : Option (Str → Bool)} {i : Input} (hup : i ≠ .upstream)
    (hpools : i ≠ .pools) (h : site.SeenAlike r r' pools i) :
    i.Agrees
      (site.pipeline.context (site.pipeline.filtered (site.received addrString r)) none)
      (site.pipeline.context (site.pipeline.filtered (site.received addrString r')) none) := by
  obtain ⟨hdr, device, geo, continent, region, heq⟩ := evaluated_eq addrString site r
  obtain ⟨hdr', device', geo', continent', region', heq'⟩ := evaluated_eq addrString site r'
  have hcookies (name : Str)
      (halike : (site.pipeline.cookiesOf r.header.cookieLine).find? (·.name = name) =
        (site.pipeline.cookiesOf r'.header.cookieLine).find? (·.name = name)) :
      (site.pipeline.filtered (site.received addrString r)).header.cookieOf name =
        (site.pipeline.filtered (site.received addrString r')).header.cookieOf name := by
    rw [cookieOf, cookieOf, lenientCookies_filtered received_one_line,
      lenientCookies_filtered received_one_line, received_cookie, received_cookie]
    exact halike
  have haddress (halike : site.AddressAlike r r') : ∃ ip,
      Cadish.clientIP r.remoteAddr (canonicalizeRequestCookies (site.unhopped r))
          site.trustedProxies = some ip ∧
        Cadish.clientIP r'.remoteAddr (canonicalizeRequestCookies (site.unhopped r'))
          site.trustedProxies = some ip := by
    obtain ⟨-, ip, hip, hip'⟩ := halike
    refine ⟨ip, ?_, ?_⟩
    · rw [@clientIP_of_lookup site r _ fun h => canonicalizeRequestCookies_lookup _ h, hip]
    · rw [@clientIP_of_lookup site r' _ fun h => canonicalizeRequestCookies_lookup _ h, hip']
  cases i with
  | method =>
    have hmethod : r.method = r'.method := h
    simp only [Input.Agrees, context, heq, heq', Request.effMethod, buildPipelineRequest, hmethod]
  | host | path =>
    simp only [heq, heq']
    exact h
  | query =>
    simp only [heq, heq']
    exact congrArg parseQueryLossless h
  | field name =>
    have halike : site.FieldAlike r r' (canonicalKey name) := h
    simp only [Input.Agrees, context]
    rw [FieldAlike] at halike
    split at halike
    case isTrue hcookie =>
      obtain ⟨hline, hne⟩ := halike
      rw [hcookie, evaluated_cookie hne, evaluated_cookie (hne.imp_left fun h => hline ▸ h)]
      simp only [hline]
    case isFalse hcookie =>
      rw [filtered_lookup _ hcookie, filtered_lookup _ hcookie,
        received_lookup hcookie, received_lookup hcookie, halike]
  | cookie name => exact hcookies name h
  | cookies pre => exact fun name hpre => hcookies name (h name hpre)
  | clientIP =>
    have htrusted : site.trustedProxies.isEmpty = false := h.1
    obtain ⟨ip, hip, hip'⟩ := haddress h
    simp only [heq, heq', buildPipelineRequest, htrusted, hip, hip']
    rfl
  | realClientIP =>
    simp only [Input.Agrees, context, heq, heq', buildPipelineRequest]
    rcases h with hgate | h
    · rw [hgate]
      rfl
    · obtain ⟨ip, hip, hip'⟩ := haddress h
      rw [hip, hip']
  | device =>
    simp only [Input.Agrees, context, evaluated_device]
    rcases h with hno | hnone | hagent
    · simp [hno]
    · simp [hnone]
    · rw [hagent]
  | geo gran =>
    obtain ⟨hcountry, hcontinent, hregion⟩ := @evaluated_geo addrString site r
    obtain ⟨hcountry', hcontinent', hregion'⟩ := @evaluated_geo addrString site r'
    have hclass := @geoClass_alike addrString site r r' h gran
    cases gran with
    | country => exact hcountry.trans (hclass.trans hcountry'.symm)
    | continent => exact hcontinent.trans (hclass.trans hcontinent'.symm)
    | region => exact hregion.trans (hclass.trans hregion'.symm)
  | pools => exact absurd rfl hpools
  | upstream => exact absurd rfl hup
  | response => rfl

theorem seenAlike_agrees {pools : Option (Str → Bool)} {i : Input} (hup : i ≠ .upstream)
    (h : site.SeenAlike r r' pools i) :
    i.Agrees
      (site.pipeline.context (site.pipeline.filtered (site.received addrString r)) none)
      (site.pipeline.context
        (site.pipeline.filtered ((site.onPeer pools).received addrString r')) none) := by
  rw [onPeer_evaluated]
  by_cases hpools : i = .pools
  · subst hpools
    obtain ⟨hdr, device, geo, continent, region, heq⟩ := evaluated_eq addrString site r
    simp only [heq]
    exact h
  · have hagrees := @seenAlike_evaluated addrString site r r' pools i hup hpools h
    cases i with
    | pools => exact absurd rfl hpools
    | upstream => exact absurd rfl hup
    | geo gran => cases gran <;> exact hagrees
    | _ => exact hagrees

end Seen

end BoundSite

end Cadish
