import Cadish.Geo.ClientIP
import Cadish.Pipeline.Inputs
import Cadish.Pipeline.Isolation
import Cadish.Server.Handler
import Cadish.Server.Paths

/-!
# From the socket to the engine

Before the engine sees a request the path is cleaned, the query is parsed, the cookie lines are
joined, and the client address and classes are resolved (`BoundSite.received`). What it evaluates is
that request with its cookies filtered, and what is forwarded has the derived ones stripped.
`netip.Addr.String` is a parameter, and the gates of the pre-passes are flags.
-/

namespace Cadish

/-! ## The query -/

/-- `url.QueryUnescape`; an escape without two hexadecimal digits is an error. -/
def queryUnescape : Str → Option Str
  | [] => some []
  | b :: s =>
    if b = Str.byte '%' then
      match s with
      | hi :: lo :: s =>
        match hexVal hi, hexVal lo, queryUnescape s with
        | some hi, some lo, some s => some (UInt8.ofNat (hi * 16 + lo) :: s)
        | _, _, _ => none
      | _ => none
    else (queryUnescape s).map ((if b = Str.byte '+' then 0x20 else b) :: ·)

def addQueryPair (m : FinMap Str (List Str)) (seg : Str) : FinMap Str (List Str) :=
  if seg = [] then m
  else
    let kv := (Str.cut (Str.byte '=') seg).getD (seg, [])
    match queryUnescape kv.1, queryUnescape kv.2 with
    | some key, some val => m.insert key ((m.lookup key).getD [] ++ [val])
    | _, _ => m

/-- `parseQueryLossless`: the pairs between ampersands, and only ampersands. -/
def parseQueryLossless (raw : Str) : FinMap Str (List Str) :=
  (Str.split (Str.byte '&') raw).foldl addQueryPair ∅

/-! ## Geo classes -/

def geoUnknown : Str := lit "unknown"

/-- `boundGeoClass`: at most sixteen bytes of the characters of a geo code. -/
def boundGeoClass (v : Str) : Str :=
  let upper := Str.toUpper v
  if 16 < v.length then geoUnknown
  else if upper.all fun b => (0x41 ≤ b && b ≤ 0x5a) || (0x30 ≤ b && b ≤ 0x39) || b == Str.byte '-'
  then upper else geoUnknown

/-- `geo.Source`. A table of networks or a database reads the address alone. -/
inductive GeoSource where
  | header (name : Str)
  | address (table : Option Addr → Str)
  | fallback (primary secondary : GeoSource)

/-- `Source.Lookup`; the header is withheld from a source when the peer is not trusted. -/
def GeoSource.lookup (ip : Option Addr) (hdr : Option Header) : GeoSource → Str
  | .header name =>
    match hdr with
    | none => geoUnknown
    | some hdr =>
      let v := Str.trimSpace (hdr.get name)
      if v = [] then geoUnknown else boundGeoClass v
  | .address table => table ip
  | .fallback primary secondary =>
    let v := primary.lookup ip hdr
    if v = geoUnknown then secondary.lookup ip hdr else v

def GeoSource.fields : GeoSource → List Str
  | .header name => [name]
  | .address _ => []
  | .fallback primary secondary => primary.fields ++ secondary.fields

/-! ## Requests as they arrive -/

structure HttpRequest where
  method : Str
  /-- the Host field, or the authority of the request line -/
  host : Str
  urlHost : Str
  path : Str
  rawQuery : Str
  header : Header
  remoteAddr : Str
  tls : Bool

structure BoundSite where
  pipeline : Pipeline
  trustedProxies : List AddrBlock
  device : Option (Str → Str)
  geo : Option GeoSource
  geoRegion : Option GeoSource
  continent : Str → Str
  usesSecurityGate : Bool
  usesDeviceClassification : Bool
  usesGeoToken : Bool
  /-- the liveness of the pools, when a matcher asks for it -/
  poolHealthy : Option (Str → Bool)
  clustered : Bool

def hopHeader : Str := lit "X-Cadish-Peer"

/-- `clientIP`: the socket peer without its port. -/
def HttpRequest.clientIP (r : HttpRequest) : Str :=
  if r.remoteAddr = [] then [] else (splitHostPort r.remoteAddr).getD r.remoteAddr

namespace BoundSite

variable (addrString : Addr → Str) (site : BoundSite)

variable (r : HttpRequest) (hdr : Header) (req : Request)

/-- The hop header counts only from a trusted peer. -/
def unhopped : Header :=
  if site.clustered ∧ r.header.get hopHeader ≠ [] ∧ peerTrusted r.remoteAddr site.trustedProxies = false
  then r.header.del hopHeader else r.header

/-- `buildPipelineRequest`, and the client address behind a trusted proxy. -/
def buildPipelineRequest : Request :=
  let ip := Cadish.clientIP r.remoteAddr hdr site.trustedProxies
  { method := r.method
    host := if r.host = [] then r.urlHost else r.host
    path := normalizePath r.path
    query := parseQueryLossless r.rawQuery
    header := hdr
    clientIP := if site.trustedProxies.isEmpty then r.clientIP
      else (ip.map addrString).getD r.clientIP
    realClientIP := if site.usesSecurityGate then ip.map addrString else none
    device := [], geo := [], geoContinent := [], geoRegion := []
    poolHealthy := site.poolHealthy }

def resolveGeo : Request :=
  match if site.usesGeoToken then site.geo else none with
  | none => req
  | some source =>
    let ip := Cadish.clientIP r.remoteAddr hdr site.trustedProxies
    let hdr := if peerTrusted r.remoteAddr site.trustedProxies then some hdr else none
    let country := source.lookup ip hdr
    { req with
      geo := country
      geoContinent := site.continent country
      geoRegion := (site.geoRegion.map fun s => s.lookup ip hdr).getD [] }

def resolveDevice : Request :=
  match if site.usesDeviceClassification then site.device else none with
  | none => req
  | some classify => { req with device := classify (req.header.get (lit "User-Agent")) }

/-- The request the phases begin with: its cookies on one line and its classes resolved. The geo
classes are resolved for the security gate if there is one, and else after the cookies are
filtered. -/
def received : Request :=
  let req := site.buildPipelineRequest addrString r (canonicalizeRequestCookies (site.unhopped r))
  let hdr := if site.usesSecurityGate then req.header else (site.pipeline.filtered req).header
  site.resolveGeo r hdr (site.resolveDevice req)

/-! ## What the pre-passes leave alone -/

variable {addrString site}

theorem received_eq (r : HttpRequest) : ∃ device geo continent region,
    site.received addrString r =
      { site.buildPipelineRequest addrString r (canonicalizeRequestCookies (site.unhopped r)) with
        device := device, geo := geo, geoContinent := continent, geoRegion := region } := by
  have hdevice (req : Request) : ∃ device, site.resolveDevice req = { req with device := device } := by
    rw [resolveDevice]
    split
    · exact ⟨req.device, rfl⟩
    · exact ⟨_, rfl⟩
  have hgeo (hdr : Header) (req : Request) : ∃ geo continent region,
      site.resolveGeo r hdr req =
        { req with geo := geo, geoContinent := continent, geoRegion := region } := by
    rw [resolveGeo]
    split
    · exact ⟨req.geo, req.geoContinent, req.geoRegion, rfl⟩
    · exact ⟨_, _, _, rfl⟩
  simp only [received]
  obtain ⟨device, hdevice⟩ := hdevice
    (site.buildPipelineRequest addrString r (canonicalizeRequestCookies (site.unhopped r)))
  obtain ⟨geo, continent, region, hgeo⟩ := hgeo _ _
  exact ⟨device, geo, continent, region, by rw [hgeo, hdevice]⟩

theorem received_header (r : HttpRequest) :
    (site.received addrString r).header = canonicalizeRequestCookies (site.unhopped r) := by
  obtain ⟨_, _, _, _, h⟩ := @received_eq addrString site r
  rw [h]
  rfl

theorem received_query (r : HttpRequest) :
    (site.received addrString r).query = parseQueryLossless r.rawQuery := by
  obtain ⟨_, _, _, _, h⟩ := @received_eq addrString site r
  rw [h]
  rfl

end BoundSite

theorem canonicalizeRequestCookies_one_line (h : Header) :
    ((canonicalizeRequestCookies h).values (lit "Cookie")).length ≤ 1 := by
  rw [canonicalizeRequestCookies_eq]
  split
  case isTrue hnone =>
    rw [hnone]
    exact Nat.zero_le 1
  case isFalse => exact Nat.le_refl 1

theorem Pipeline.forwarded_one_line (p : Pipeline) {req : Request}
    (h : (req.header.values (lit "Cookie")).length ≤ 1) :
    ((p.forwarded req).header.values (lit "Cookie")).length ≤ 1 := by
  rw [forwarded]
  simp only [stripDerivedCookies]
  split
  · rw [values_setCookieField_cookie _ _ (by decide)]
    split
    · exact Nat.zero_le 1
    · exact Nat.le_refl 1
  · exact filtered_one_line h

theorem BoundSite.forwarded_one_line (addrString : Addr → Str) (site : BoundSite) (r : HttpRequest) :
    ((site.pipeline.forwarded (site.received addrString r)).header.values (lit "Cookie")).length ≤ 1 := by
  refine Pipeline.forwarded_one_line _ ?_
  rw [received_header]
  exact canonicalizeRequestCookies_one_line _

end Cadish
